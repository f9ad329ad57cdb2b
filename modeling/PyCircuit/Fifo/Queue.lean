import PyCircuit.Fifo.Kernel

/-!
# The delayed queue

What a FIFO lane is for, with unbounded time: a list of tokens, each with the edge it was accepted
at, and the number of edges so far. A token accepted at edge `t` is ripe from the end of edge `t +
latency - 1` on, and the front token leaves when it is ripe. A `Machine` is the queue behind the
calls of the kernel, with a proposal that says what is to happen at the next `xfer`.
-/

set_option autoImplicit false

namespace PyCircuit.Fifo

open PyCircuit.Lib

/-! ## The queue -/

/-- Tokens with the edges they were accepted at, after `now` edges. -/
structure Queue (α : Type) where
  now : Nat
  entries : List (α × Nat)

namespace Queue

variable {α : Type} (cfg : Config)

/-- After `now` edges the token can leave. -/
def Ripe (now : Nat) (e : α × Nat) : Prop := e.2 + (cfg.latency - 1) ≤ now

instance (now : Nat) (e : α × Nat) : Decidable (Ripe cfg now e) :=
  inferInstanceAs (Decidable (_ ≤ _))

def ripe (q : Queue α) : List (α × Nat) := q.entries.filter fun e => Ripe cfg q.now e

def waiting (q : Queue α) : List (α × Nat) := q.entries.filter fun e => ¬ Ripe cfg q.now e

/-- The front token is ripe. -/
def valid (q : Queue α) : Bool :=
  match q.entries with
  | [] => false
  | e :: _ => decide (Ripe cfg q.now e)

/-- The front token when it is ripe, and zero otherwise. -/
def front [Payload α] (q : Queue α) : α :=
  match q.entries with
  | [] => Payload.zero
  | e :: _ => if Ripe cfg q.now e then e.1 else Payload.zero

/-- There is room, or room is made at this edge. -/
def ready (q : Queue α) (outReady : Logic) : Logic :=
  let room := Logic.ofBool (decide (q.entries.length < cfg.depth))
  match cfg.policy with
  | .localOccupancy => room
  | .downstreamPop => room.or ((Logic.ofBool (q.valid cfg)).and outReady)

/-- One edge: the front token leaves, and a token is accepted. -/
def edge (q : Queue α) (push : Option α) (pop : Bool) : Queue α where
  now := q.now + 1
  entries := (if pop then q.entries.tail else q.entries) ++
    (push.map fun token => (token, q.now + 1)).toList

/-- The token that becomes ripe at the next edge. -/
def matured (q : Queue α) : Option (α × Nat) :=
  match q.waiting cfg with
  | [] => none
  | e :: _ => if e.2 + (cfg.latency - 1) = q.now + 1 then some e else none

end Queue

/-! ## The queue behind the calls -/

/-- What the next `xfer` does. -/
inductive Proposal (α : Type) where
  | idle
  | hold (clock : Bool)
  | reset (clock : Bool)
  | edge (push : Option α) (pop : Bool)

structure Machine (α : Type) where
  queue : Queue α
  clock : Bool
  proposal : Proposal α

namespace Machine

variable {α : Type} (cfg : Config)

/-- The state after a reset. -/
def empty (clock : Bool) : Machine α := ⟨⟨0, []⟩, clock, .idle⟩

def propose (m : Machine α) (inputs : Inputs α) : Except String (Proposal α) :=
  match inputs.clk.toBool? with
  | none => .error "fifo clock must be known"
  | some clock =>
    if m.clock || !clock then .ok (.hold clock)
    else
      match inputs.rst.toBool? with
      | none => .error "fifo reset must be known at posedge"
      | some true => .ok (.reset clock)
      | some false =>
        match (inputs.inValid.and (m.queue.ready cfg inputs.outReady)).toBool?,
          ((Logic.ofBool (m.queue.valid cfg)).and inputs.outReady).toBool? with
        | some push, some pop => .ok (.edge (if push then some inputs.inData else none) pop)
        | _, _ => .error "fifo effective transfers must be known"

def commit (m : Machine α) : Machine α :=
  match m.proposal with
  | .idle => m
  | .hold clock => ⟨m.queue, clock, .idle⟩
  | .reset clock => empty clock
  | .edge push pop => ⟨m.queue.edge push pop, true, .idle⟩

def call (m : Machine α) : Call α → Machine α
  | .work inputs =>
    match m.propose cfg inputs with
    | .ok proposal => ⟨m.queue, m.clock, proposal⟩
    | .error _ => ⟨m.queue, m.clock, .idle⟩
  | .xfer => m.commit
  | .discard => ⟨m.queue, m.clock, .idle⟩
  | .reset => ⟨m.queue, m.clock, .reset false⟩

def thrown (m : Machine α) : Call α → Option String
  | .work inputs =>
    match m.propose cfg inputs with
    | .ok _ => none
    | .error message => some message
  | _ => none

def run (m : Machine α) (calls : List (Call α)) : Machine α := calls.foldl (call cfg) m

end Machine

/-! ## Order in the queue -/

namespace Queue

variable {α : Type} (cfg : Config) {q : Queue α}

/-- The tokens are in the order of their edges, at most one for each, and of the past. -/
structure Ordered (q : Queue α) : Prop where
  sorted : q.entries.Pairwise fun e f => e.2 < f.2
  past : ∀ e ∈ q.entries, e.2 ≤ q.now

theorem Ordered.edge (h : q.Ordered) (push : Option α) (pop : Bool) :
    (q.edge push pop).Ordered := by
  have hsub : (if pop then q.entries.tail else q.entries).Sublist q.entries := by
    cases pop with
    | false => exact List.Sublist.refl _
    | true => exact List.tail_sublist _
  constructor
  · apply List.pairwise_append.mpr
    refine ⟨h.sorted.sublist hsub, ?_, ?_⟩
    · cases push <;> simp
    · intro e he f hf
      have hpast := h.past e (hsub.subset he)
      cases push with
      | none => cases hf
      | some token =>
        rw [List.mem_singleton.mp hf]
        exact Nat.lt_succ_of_le hpast
  · intro e he
    rcases List.mem_append.mp he with hold | hnew
    · exact Nat.le_succ_of_le (h.past e (hsub.subset hold))
    · cases push with
      | none => cases hnew
      | some token =>
        rw [List.mem_singleton.mp hnew]
        exact Nat.le_refl _

/-- The ripe tokens are the front of the queue. -/
theorem Ordered.split (h : q.Ordered) : q.entries = q.ripe cfg ++ q.waiting cfg := by
  unfold ripe waiting
  have hsorted := h.sorted
  generalize q.entries = entries at hsorted
  induction entries with
  | nil => rfl
  | cons e rest ih =>
    obtain ⟨hfirst, hrest⟩ := List.pairwise_cons.mp hsorted
    by_cases hripe : Ripe cfg q.now e
    · rw [List.filter_cons_of_pos (by simpa using hripe),
        List.filter_cons_of_neg (by simpa using hripe), List.cons_append]
      exact congrArg _ (ih hrest)
    · -- nothing after a token that is not ripe is ripe
      have hlate : ∀ f ∈ rest, ¬ Ripe cfg q.now f := by
        intro f hf hripe'
        have hlt := hfirst f hf
        unfold Ripe at hripe hripe'
        omega
      rw [List.filter_cons_of_neg (by simpa using hripe),
        List.filter_cons_of_pos (by simpa using hripe),
        List.filter_eq_nil_iff.mpr (by simpa using hlate),
        List.filter_eq_self.mpr (by simpa using hlate), List.nil_append]

variable {cfg}

theorem ripe_of_mem {e : α × Nat} (he : e ∈ q.ripe cfg) : Ripe cfg q.now e := by
  simpa using (List.mem_filter.mp he).2

theorem not_ripe_of_mem {e : α × Nat} (he : e ∈ q.waiting cfg) : ¬ Ripe cfg q.now e := by
  simpa using (List.mem_filter.mp he).2

/-- The first token is ripe when some token is. -/
theorem Ordered.entries_of_ripe (h : q.Ordered) {e : α × Nat} {rest : List (α × Nat)}
    (hripe : q.ripe cfg = e :: rest) :
    q.entries = e :: (rest ++ q.waiting cfg) ∧ Ripe cfg q.now e := by
  constructor
  · rw [h.split cfg, hripe, List.cons_append]
  · apply ripe_of_mem
    rw [hripe]
    exact List.mem_cons_self

theorem not_ripe_of_head {e : α × Nat} {rest : List (α × Nat)} (hripe : q.ripe cfg = [])
    (hentries : q.entries = e :: rest) : ¬ Ripe cfg q.now e := by
  intro hfirst
  have hmem : e ∈ q.ripe cfg := by
    apply List.mem_filter.mpr
    rw [hentries]
    exact ⟨List.mem_cons_self, decide_eq_true hfirst⟩
  rw [hripe] at hmem
  cases hmem

theorem Ordered.valid_eq (h : q.Ordered) : q.valid cfg = decide ((q.ripe cfg).length ≠ 0) := by
  unfold valid
  cases hripe : q.ripe cfg with
  | nil =>
    split
    · rfl
    · next hentries => exact decide_eq_false (not_ripe_of_head hripe hentries)
  | cons e rest =>
    obtain ⟨hentries, hfirst⟩ := h.entries_of_ripe hripe
    rw [hentries]
    exact decide_eq_true hfirst

theorem Ordered.front_eq [Payload α] (h : q.Ordered) :
    q.front cfg = ((q.ripe cfg).map Prod.fst).headD Payload.zero := by
  unfold front
  cases hripe : q.ripe cfg with
  | nil =>
    split
    · rfl
    · next hentries => exact if_neg (not_ripe_of_head hripe hentries)
  | cons e rest =>
    obtain ⟨hentries, hfirst⟩ := h.entries_of_ripe hripe
    rw [hentries]
    exact if_pos hfirst

/-! ## One edge -/

/-- The tokens after an edge, in parts. -/
theorem Ordered.entries_edge (h : q.Ordered) (push : Option α) {pop : Bool}
    (hpop : pop = true → q.valid cfg = true) :
    (q.edge push pop).entries =
      (if pop then (q.ripe cfg).tail else q.ripe cfg) ++
        (q.waiting cfg ++ (push.map fun token => (token, q.now + 1)).toList) := by
  rw [← List.append_assoc]
  dsimp only [Queue.edge]
  congr 1
  cases pop with
  | false => exact h.split cfg
  | true =>
    have hvalid := hpop rfl
    rw [h.valid_eq] at hvalid
    show q.entries.tail = (q.ripe cfg).tail ++ q.waiting cfg
    rw [h.split cfg]
    cases hripe : q.ripe cfg with
    | nil =>
      rw [hripe] at hvalid
      cases hvalid
    | cons e rest => rfl

/-- Of the waiting tokens only the first can become ripe at the next edge. -/
theorem Ordered.filter_waiting (cfg : Config) (h : q.Ordered) :
    (q.waiting cfg).filter (fun e => Ripe cfg (q.now + 1) e) = (q.matured cfg).toList ∧
    (q.waiting cfg).filter (fun e => ¬ Ripe cfg (q.now + 1) e) =
      if (q.matured cfg).isSome then (q.waiting cfg).tail else q.waiting cfg := by
  have hsorted : (q.waiting cfg).Pairwise fun e f => e.2 < f.2 := h.sorted.filter _
  have hlate : ∀ e ∈ q.waiting cfg, ¬ Ripe cfg q.now e := fun e he => not_ripe_of_mem he
  unfold matured
  cases hwaiting : q.waiting cfg with
  | nil => exact ⟨rfl, rfl⟩
  | cons e rest =>
    rw [hwaiting] at hsorted hlate
    obtain ⟨hfirst, -⟩ := List.pairwise_cons.mp hsorted
    have he := hlate e List.mem_cons_self
    have hrest : ∀ f ∈ rest, ¬ Ripe cfg (q.now + 1) f := by
      intro f hf hripe
      have hlt := hfirst f hf
      unfold Ripe at he hripe
      omega
    have hnone : rest.filter (fun f => Ripe cfg (q.now + 1) f) = [] :=
      List.filter_eq_nil_iff.mpr (by simpa using hrest)
    have hall : rest.filter (fun f => ¬ Ripe cfg (q.now + 1) f) = rest :=
      List.filter_eq_self.mpr (by simpa using hrest)
    by_cases hnow : e.2 + (cfg.latency - 1) = q.now + 1
    · have hripe : Ripe cfg (q.now + 1) e := Nat.le_of_eq hnow
      rw [List.filter_cons_of_pos (by simpa using hripe),
        List.filter_cons_of_neg (by simpa using hripe), hnone, hall]
      simp [hnow]
    · have hripe : ¬ Ripe cfg (q.now + 1) e := by
        unfold Ripe at he ⊢
        omega
      rw [List.filter_cons_of_neg (by simpa using hripe),
        List.filter_cons_of_pos (by simpa using hripe), hnone, hall]
      simp [hnow]

/-- After an edge one ripe token may have left, and one waiting token may be ripe. -/
theorem Ordered.parts_edge (h : q.Ordered) (hlatency : 1 < cfg.latency) (push : Option α)
    {pop : Bool} (hpop : pop = true → q.valid cfg = true) :
    (q.edge push pop).ripe cfg =
      (if pop then (q.ripe cfg).tail else q.ripe cfg) ++ (q.matured cfg).toList ∧
    (q.edge push pop).waiting cfg =
      (if (q.matured cfg).isSome then (q.waiting cfg).tail else q.waiting cfg) ++
        (push.map fun token => (token, q.now + 1)).toList := by
  have hold : ∀ e ∈ if pop then (q.ripe cfg).tail else q.ripe cfg, Ripe cfg (q.now + 1) e := by
    intro e he
    have hmem : e ∈ q.ripe cfg := by
      cases pop with
      | false => exact he
      | true => exact List.mem_of_mem_tail he
    exact Nat.le_succ_of_le (ripe_of_mem hmem)
  have hnew : ∀ e ∈ (push.map fun token => (token, q.now + 1)).toList,
      ¬ Ripe cfg (q.now + 1) e := by
    intro e he
    cases push with
    | none => cases he
    | some token =>
      rw [List.mem_singleton.mp he]
      unfold Ripe
      dsimp only
      omega
  obtain ⟨hmatured, hstill⟩ := h.filter_waiting cfg
  constructor
  · show (q.edge push pop).entries.filter (fun e => Ripe cfg (q.now + 1) e) = _
    rw [h.entries_edge push hpop, List.filter_append, List.filter_append, hmatured,
      List.filter_eq_self.mpr (by simpa using hold),
      List.filter_eq_nil_iff.mpr (by simpa using hnew),
      List.append_nil]
  · show (q.edge push pop).entries.filter (fun e => ¬ Ripe cfg (q.now + 1) e) = _
    rw [h.entries_edge push hpop, List.filter_append, List.filter_append, hstill,
      List.filter_eq_nil_iff.mpr (by simpa using hold),
      List.filter_eq_self.mpr (by simpa using hnew),
      List.nil_append]

/-- At latency one every token is ripe. -/
theorem Ordered.ripe_eq_entries (h : q.Ordered) (hlatency : cfg.latency = 1) :
    q.ripe cfg = q.entries := by
  apply List.filter_eq_self.mpr
  intro e he
  have hpast := h.past e he
  apply decide_eq_true
  unfold Ripe
  omega

end Queue

end PyCircuit.Fifo
