import PyCircuit.Fifo.Queue

/-!
# A queue in a ring

What one edge of the queue does to a ring that holds its tokens and to a ring that holds something
about its waiting tokens: the positions move on by one when the front token leaves or a waiting
token becomes ripe, and the slot at the write position is written when a token is accepted.
-/

set_option autoImplicit false

namespace PyCircuit.Fifo

open PyCircuit.Lib Ring

/-- A queue that the depth has room for. -/
structure Queue.WellFormed {α : Type} (cfg : Config) (q : Queue α) : Prop where
  ordered : q.Ordered
  bounded : q.entries.length ≤ cfg.depth

/-- An edge that the queue allows. -/
structure Queue.Admits {α : Type} (cfg : Config) (q : Queue α) (push : Option α) (pop : Bool) :
    Prop where
  shown : pop = true → q.valid cfg = true
  room : push.isSome = true → q.entries.length < cfg.depth ∨ pop = true

/-- The transfers that known requests lead to are allowed. -/
theorem Queue.admits {α : Type} {cfg : Config} {q : Queue α} {inValid outReady : Logic}
    {push pop : Bool} (hpush : (inValid.and (q.ready cfg outReady)).toBool? = some push)
    (hpop : ((Logic.ofBool (q.valid cfg)).and outReady).toBool? = some pop) (data : α) :
    q.Admits cfg (if push then some data else none) pop := by
  constructor
  · rintro rfl
    exact Logic.ofBool_eq_one.mp (Logic.and_eq_one.mp (Logic.toBool?_eq_some.mp hpop)).1
  · intro hset
    obtain rfl : push = true := by
      cases push with
      | false => cases hset
      | true => rfl
    have hone := (Logic.and_eq_one.mp (Logic.toBool?_eq_some.mp hpush)).2
    unfold ready at hone
    cases hpolicy : cfg.policy with
    | localOccupancy =>
      rw [hpolicy] at hone
      exact Or.inl (of_decide_eq_true (Logic.ofBool_eq_one.mp hone))
    | downstreamPop =>
      rw [hpolicy] at hone
      rcases Logic.or_eq_one.mp hone with hlt | hpopped
      · exact Or.inl (of_decide_eq_true (Logic.ofBool_eq_one.mp hlt))
      · rw [hpopped] at hpop
        exact Or.inr (Option.some.inj hpop).symm

namespace Queue.WellFormed

variable {cfg : Config} {α : Type} {q : Queue α} {push : Option α} {pop : Bool}

theorem length (h : q.WellFormed cfg) :
    q.entries.length = (q.ripe cfg).length + (q.waiting cfg).length := by
  rw [← List.length_append, ← h.ordered.split cfg]

section

variable (h : q.WellFormed cfg) (hadmits : q.Admits cfg push pop)
include h hadmits

theorem ripe_ne_nil (hpop : pop = true) : q.ripe cfg ≠ [] := by
  have hvalid := hadmits.shown hpop
  rw [h.ordered.valid_eq, decide_eq_true_iff] at hvalid
  exact List.length_pos_iff.mp (Nat.pos_of_ne_zero hvalid)

theorem entries_ne_nil (hpop : pop = true) : q.entries ≠ [] := by
  rw [h.ordered.split cfg]
  exact List.append_ne_nil_of_left_ne_nil (h.ripe_ne_nil hadmits hpop) _

/-- The tokens that an edge leaves in place are less than the depth when it accepts one. -/
theorem kept_lt (hpush : push.isSome = true) :
    (if pop then q.entries.tail else q.entries).length < cfg.depth := by
  have hbounded := h.bounded
  cases pop with
  | false =>
    rcases hadmits.room hpush with hlt | hpop
    · exact hlt
    · cases hpop
  | true =>
    have hpos := List.length_pos_iff.mpr (h.entries_ne_nil hadmits rfl)
    show q.entries.tail.length < cfg.depth
    rw [List.length_tail]
    omega

/-- The waiting tokens are less than the depth when an edge accepts one. -/
theorem waiting_lt (hpush : push.isSome = true) : (q.waiting cfg).length < cfg.depth := by
  have hlength := h.length
  have hbounded := h.bounded
  rcases hadmits.room hpush with hlt | hpop
  · omega
  · have hpos := List.length_pos_iff.mpr (h.ripe_ne_nil hadmits hpop)
    omega

/-- The number of tokens after an edge. -/
theorem length_edge :
    (q.edge push pop).entries.length + (if pop then 1 else 0) =
      q.entries.length + (if push.isSome then 1 else 0) := by
  have htail : (if pop then q.entries.tail else q.entries).length + (if pop then 1 else 0) =
      q.entries.length := by
    cases pop with
    | false => rfl
    | true =>
      have hpos := List.length_pos_iff.mpr (h.entries_ne_nil hadmits rfl)
      show q.entries.tail.length + 1 = q.entries.length
      rw [List.length_tail]
      omega
  have hnew : ((push.map fun token => (token, q.now + 1)).toList).length =
      if push.isSome then 1 else 0 := by
    cases push <;> rfl
  show ((if pop then q.entries.tail else q.entries) ++ _).length + _ = _
  rw [List.length_append, hnew]
  omega

theorem edge : (q.edge push pop).WellFormed cfg := by
  refine ⟨h.ordered.edge push pop, ?_⟩
  have hlength := h.length_edge hadmits
  have hbounded := h.bounded
  cases hpush : push.isSome with
  | false =>
    simp only [hpush, Bool.false_eq_true, if_false] at hlength
    omega
  | true =>
    simp only [hpush, if_true] at hlength
    rcases hadmits.room hpush with hlt | hpop
    · omega
    · simp only [hpop, if_true] at hlength
      rw [hpop]
      omega

/-- One ripe token may have left, and one may have become ripe. -/
theorem ripe_length_edge (hlatency : 1 < cfg.latency) :
    ((q.edge push pop).ripe cfg).length + (if pop then 1 else 0) =
      (q.ripe cfg).length + (if (q.matured cfg).isSome then 1 else 0) := by
  rw [(h.ordered.parts_edge hlatency push hadmits.shown).1, List.length_append]
  cases pop with
  | false => cases q.matured cfg <;> simp
  | true =>
    have hpos := List.length_pos_iff.mpr (h.ripe_ne_nil hadmits rfl)
    cases q.matured cfg <;> simp <;> omega

end

/-! ## The rings -/

/-- The tokens after an edge. -/
theorem map_fst_edge {a : α} (ha : ∀ token, push = some token → a = token) :
    (q.edge push pop).entries.map Prod.fst =
      (if pop then (q.entries.map Prod.fst).tail else q.entries.map Prod.fst) ++
        if push.isSome then [a] else [] := by
  show ((if pop then q.entries.tail else q.entries) ++ _).map Prod.fst = _
  rw [List.map_append]
  congr 1
  · cases pop <;> simp
  · cases push with
    | none => rfl
    | some token =>
      rw [ha token rfl]
      rfl

section

variable (h : q.WellFormed cfg) (hadmits : q.Admits cfg push pop)
include h hadmits

/-- A ring with the tokens of the queue. -/
theorem tokens_edge {slots : Vector α cfg.depth} {rd wr : Fin cfg.depth} {a : α}
    (htokens : window slots rd q.entries.length = q.entries.map Prod.fst)
    (hwr : wr = offset rd q.entries.length) (ha : ∀ token, push = some token → a = token) :
    window (if push.isSome then slots.set wr a else slots)
        (if pop then next rd else rd) (q.edge push pop).entries.length =
      (q.edge push pop).entries.map Prod.fst ∧
    (if push.isSome then next wr else wr) =
      offset (if pop then next rd else rd) (q.edge push pop).entries.length := by
  rw [← List.length_map Prod.fst, map_fst_edge ha]
  rw [← List.length_map Prod.fst] at htokens hwr
  apply window_edge _ _ _ htokens hwr
  · intro hpop hnil
    exact h.entries_ne_nil hadmits hpop (List.map_eq_nil_iff.mp hnil)
  · rfl
  · intro hpush
    have hlt := h.kept_lt hadmits hpush
    cases pop with
    | false | true => simpa using hlt

/-- The position after the ripe tokens. -/
theorem mature_edge (hlatency : 1 < cfg.latency) (rd : Fin cfg.depth) :
    (if (q.matured cfg).isSome then next (offset rd (q.ripe cfg).length)
      else offset rd (q.ripe cfg).length) =
      offset (if pop then next rd else rd) ((q.edge push pop).ripe cfg).length := by
  -- both sides are the same number of slots after the old read position
  have hleft : (if (q.matured cfg).isSome then next (offset rd (q.ripe cfg).length)
      else offset rd (q.ripe cfg).length) =
      offset rd ((q.ripe cfg).length + if (q.matured cfg).isSome then 1 else 0) := by
    cases (q.matured cfg).isSome with
    | false => rfl
    | true => exact next_offset _ _
  have hright : ∀ k, offset (if pop then next rd else rd) k =
      offset rd (k + if pop then 1 else 0) := by
    intro k
    cases pop with
    | false => rfl
    | true => exact offset_next _ _
  rw [hleft, hright, h.ripe_length_edge hadmits hlatency]

/-- A ring with what `due` says of the waiting tokens. -/
theorem waiting_edge (hlatency : 1 < cfg.latency) {β : Type} (due : Nat → β)
    {slots : Vector β cfg.depth} {rd wr : Fin cfg.depth}
    (hslots : window slots (offset rd (q.ripe cfg).length) (q.waiting cfg).length =
      (q.waiting cfg).map fun e => due e.2)
    (hwr : wr = offset rd q.entries.length) :
    window (if push.isSome then slots.set wr (due (q.now + 1)) else slots)
        (offset (if pop then next rd else rd) ((q.edge push pop).ripe cfg).length)
        ((q.edge push pop).waiting cfg).length =
      ((q.edge push pop).waiting cfg).map fun e => due e.2 := by
  have hwr' : wr = offset (offset rd (q.ripe cfg).length)
      ((q.waiting cfg).map fun e => due e.2).length := by
    rw [List.length_map, offset_offset, ← h.length]
    exact hwr
  have hmatured : (q.matured cfg).isSome = true → ((q.waiting cfg).map fun e => due e.2) ≠ [] := by
    intro hm hnil
    unfold matured at hm
    rw [List.map_eq_nil_iff.mp hnil] at hm
    cases hm
  have hroom : push.isSome = true →
      (if (q.matured cfg).isSome then ((q.waiting cfg).map fun e => due e.2).tail
        else (q.waiting cfg).map fun e => due e.2).length < cfg.depth := by
    intro hpush
    have hlt := h.waiting_lt hadmits hpush
    cases (q.matured cfg).isSome with
    | false => simpa using hlt
    | true =>
      simp only [if_true, List.length_tail, List.length_map]
      omega
  have hnew : (((q.edge push pop).waiting cfg).map fun e => due e.2) =
      (if (q.matured cfg).isSome then ((q.waiting cfg).map fun e => due e.2).tail
        else (q.waiting cfg).map fun e => due e.2) ++
        if push.isSome then [due (q.now + 1)] else [] := by
    rw [(h.ordered.parts_edge hlatency push hadmits.shown).2, List.map_append]
    congr 1
    · cases (q.matured cfg).isSome <;> simp
    · cases push <;> rfl
  have hslots' : window slots (offset rd (q.ripe cfg).length)
      ((q.waiting cfg).map fun e => due e.2).length = (q.waiting cfg).map fun e => due e.2 := by
    rw [List.length_map]
    exact hslots
  have hgoal := (window_edge push.isSome (q.matured cfg).isSome (due (q.now + 1))
    hslots' hwr' hmatured rfl hroom).1
  rw [← hnew, List.length_map, h.mature_edge hadmits hlatency rd] at hgoal
  exact hgoal

end

end Queue.WellFormed

end PyCircuit.Fifo
