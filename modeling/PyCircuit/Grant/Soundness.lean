import PyCircuit.Grant.Prover

/-!
# Soundness of the owner-enable proof

A valuation assigns a four-state word to every node, as the descriptions of the adapter say
(`Faithful`). `Sound` is the invariant of a proof object in such a valuation: the descriptions it
keeps are right, and every cached result follows from its query under the collision it was derived
with. Every program of the proof keeps it, so a query that finds two enables disjoint is right after
any earlier queries, with or without a collision.
-/

set_option autoImplicit false

namespace PyCircuit.Grant

open PyCircuit.Lib

/-! ## Valuations -/

/-- The word is the known pattern. -/
def Constant.Matches (c : Constant) (w : Word) : Prop :=
  ∃ n : Nat, Word.known? w = some n ∧ c.value = n ∧ w.length = c.width

/-- The description of a node is right: its width, its known pattern, and the operation that
computes it from its operands. -/
def NodeView.Describes (view : NodeView) (ν : Node → Word) (node : Node) : Prop :=
  (∀ w, view.width = some w → (ν node).length = w) ∧
  (∀ c, view.fullyKnown = some c → c.Matches (ν node)) ∧
  match view.kind, view.operands with
  | .not, [a] => ν node = (ν a).map Logic.not
  | .and, [a, b] => (ν a).length = (ν node).length ∧ (ν b).length = (ν node).length ∧
      ν node = List.zipWith Logic.and (ν a) (ν b)
  | .or, [a, b] => (ν a).length = (ν node).length ∧ (ν b).length = (ν node).length ∧
      ν node = List.zipWith Logic.or (ν a) (ν b)
  | .select, [c, a, b] => (ν a).length = (ν node).length ∧ (ν b).length = (ν node).length ∧
      ∃ l, ν c = [l] ∧ ν node = Word.select l (ν a) (ν b)
  | .eq, [a, b] => (ν a).length = (ν b).length ∧ ν node = [Word.eq (ν a) (ν b)]
  | .ne, [a, b] => (ν a).length = (ν b).length ∧ ν node = [(Word.eq (ν a) (ν b)).not]
  | _, _ => True

/-- The valuation is one of the graph behind the adapter: canonical nodes have the words of the
nodes they stand for, and descriptions are right. -/
structure Faithful {β : Type} (A : Adapter β) (ν : Node → Word) : Prop where
  canonicalize : ∀ f, A.canonicalize = some f → ∀ node depth b m b',
    f node depth b = (some m, b') → ν m = ν node
  inspect : ∀ f, A.inspect = some f → ∀ node b view b',
    f node b = (some view, b') → view.Describes ν node

/-- The addresses of a collision are not known to differ. -/
def Possible (ν : Node → Word) (collision : Option (Node × Node)) : Prop :=
  ∀ p, collision = some p → ¬ Word.Differ (ν p.1) (ν p.2)

def Fact.Holds (ν : Node → Word) (f : Fact) : Prop :=
  match f.constant, f.polarity with
  | none, polarity => ν f.value = [.ofBool polarity]
  | some c, true => Constant.Matches ⟨c, f.width⟩ (ν f.value)
  | some c, false => ∃ w, Constant.Matches ⟨c, f.width⟩ w ∧ Word.Differ (ν f.value) w

def Result.Holds (ν : Node → Word) : Result → Prop
  | .facts derived => ∀ f ∈ derived, f.Holds ν
  | .impossible => False
  | .failure => True

/-- The result is right wherever the premise holds and the collision is possible. -/
def Result.Follows (ν : Node → Word) (collision : Option (Node × Node)) (premise : Prop)
    (r : Result) : Prop :=
  Possible ν collision → premise → r.Holds ν

/-- What a proof object keeps between and during queries. -/
structure Sound {β : Type} (ν : Node → Word) (collision : Option (Node × Node)) (s : Prover β) :
    Prop where
  collision : s.collision = collision
  cache : ∀ entry ∈ s.cache,
    entry.2.Follows ν entry.1.collision (ν entry.1.value = [.ofBool entry.1.polarity])
  views : ∀ entry ∈ s.views, entry.2.Describes ν entry.1

variable {node : Node} {l : Logic} (amount : Nat) (a result : Result) (fact : Fact)
  (message : String)

section

variable {α β γ : Type} {A : Adapter β} {ν : Node → Word} {collision : Option (Node × Node)}

/-! ## Words and patterns -/

variable {c d : Constant} {w v : Word} {s : Prover β} {Q : α → Prop}

theorem Constant.Matches.unique (hc : c.Matches w) (hd : d.Matches w) :
    c.value = d.value ∧ c.width = d.width := by
  obtain ⟨m, hm, hcm, hcw⟩ := hc
  obtain ⟨n, hn, hdn, hdw⟩ := hd
  have hmn : m = n := Option.some.inj (hm.symm.trans hn)
  exact ⟨by rw [hcm, hdn, hmn], hcw.symm.trans hdw⟩

/-- Words of two equal patterns are the same address. -/
theorem Constant.Matches.getD_eq (hc : c.Matches v)
    (hd : d.Matches w) (h : c.value = d.value) (i : Nat) : v.getD i .zero = w.getD i .zero := by
  obtain ⟨m, hm, hcm, -⟩ := hc
  obtain ⟨n, hn, hdn, -⟩ := hd
  have hmn : m = n := by
    rw [hcm, hdn] at h
    exact Int.ofNat.inj h
  rw [Word.getD_of_known hm, Word.getD_of_known hn, hmn]

theorem Constant.Matches.not_differ (hc : c.Matches v)
    (hd : d.Matches w) (h : c.value = d.value) : ¬ Word.Differ v w := by
  rintro ⟨i, p, hp, hq⟩
  rw [hc.getD_eq hd h i, hq] at hp
  cases p <;> cases hp

theorem Constant.Matches.differ (hc : c.Matches v)
    (hd : d.Matches w) (h : c.value ≠ d.value) : Word.Differ v w := by
  obtain ⟨m, hm, hcm, -⟩ := hc
  obtain ⟨n, hn, hdn, -⟩ := hd
  refine Word.differ_of_known hm hn ?_
  rintro rfl
  exact h (hcm.trans hdn.symm)

/-- A known one-bit pattern. -/
theorem Constant.Matches.bit (h : c.Matches [l]) : l = .ofBool c.truth := by
  obtain ⟨n, hn, hc, -⟩ := h
  cases l with
  | zero =>
    obtain rfl : 0 = n := Option.some.inj hn
    simp [Constant.truth, hc]
  | one =>
    obtain rfl : 1 = n := Option.some.inj hn
    simp [Constant.truth, hc]
  | x | z => cases hn

/-- Known equal words: a pattern of one is a pattern of the other. -/
theorem Constant.Matches.of_eq_one (hc : c.Matches w)
    (hlen : v.length = w.length) (h : Word.eq v w = .one) : c.Matches v := by
  obtain ⟨n, hn, hc, hw⟩ := hc
  obtain ⟨m, hm, hm'⟩ := Word.known_of_eq_one hlen h
  have hmn : m = n := Option.some.inj (hm'.symm.trans hn)
  exact ⟨m, hm, by rw [hc, hmn], hlen.trans hw⟩

/-- The operands of a one-bit operation are bits. -/
theorem binary_bits {op : Logic → Logic → Logic} {u : Word}
    (h : v.length = u.length ∧ w.length = u.length ∧ u = List.zipWith op v w)
    (hwidth : u.length = 1) : ∃ a b, v = [a] ∧ w = [b] ∧ u = [op a b] := by
  obtain ⟨hv, hw, hu⟩ := h
  obtain ⟨a, rfl⟩ := List.length_eq_one_iff.mp (hv.trans hwidth)
  obtain ⟨b, rfl⟩ := List.length_eq_one_iff.mp (hw.trans hwidth)
  exact ⟨a, b, rfl, rfl, hu⟩

theorem differ_congr {a b c d : Word} (hac : ∀ i, a.getD i .zero = c.getD i .zero)
    (hbd : ∀ i, b.getD i .zero = d.getD i .zero) (h : Word.Differ a b) : Word.Differ c d := by
  obtain ⟨i, p, hp, hq⟩ := h
  exact ⟨i, p, (hac i).symm.trans hp, (hbd i).symm.trans hq⟩

theorem differ_symm {a b : Word} (h : Word.Differ a b) : Word.Differ b a := by
  obtain ⟨i, p, hp, hq⟩ := h
  refine ⟨i, !p, hq, ?_⟩
  rw [Bool.not_not]
  exact hp

/-! ## Contradictions -/

/-- A node is not equal to a pattern and known to differ from it. -/
theorem Fact.Holds.not_both {w : Nat} {m : Int} (hequal : Fact.Holds ν ⟨node, true, some m, w⟩)
    (hdiffer : Fact.Holds ν ⟨node, false, some m, w⟩) : False := by
  obtain ⟨v, hv, hdiffer⟩ := hdiffer
  exact Constant.Matches.not_differ hequal hv rfl hdiffer

theorem contradictory_sound {a c : Fact} (h : contradictory a c = true) (ha : a.Holds ν)
    (hc : c.Holds ν) : False := by
  obtain ⟨value, p, m, w⟩ := a
  obtain ⟨value', q, n, w'⟩ := c
  by_cases hvalue : value = value'
  · subst hvalue
    cases m with
    | none =>
      cases n with
      | some n => simp [contradictory] at h
      | none =>
        have hpq : p ≠ q := by simpa [contradictory] using h
        have hbit : [Logic.ofBool p] = [.ofBool q] := Eq.trans (Eq.symm ha) hc
        exact hpq (Logic.ofBool_inj (List.cons.inj hbit).1)
    | some m =>
      cases n with
      | none => simp [contradictory] at h
      | some n =>
        obtain rfl : w = w' := by
          by_contra hne
          simp [contradictory, hne] at h
        by_cases hmn : m = n
        · subst hmn
          have hpq : p ≠ q := by simpa [contradictory] using h
          cases p <;> cases q <;>
            first | exact hpq rfl | exact ha.not_both hc | exact hc.not_both ha
        · obtain ⟨rfl, rfl⟩ : p = true ∧ q = true := by
            simpa [contradictory, hmn] using h
          exact hmn (Constant.Matches.unique ha hc).1
  · simp [contradictory, hvalue] at h

/-! ## Programs that leave the invariant alone -/

theorem Sound.of_eq {s' : Prover β} (h : Sound ν collision s)
    (hcollision : s'.collision = s.collision) (hcache : s'.cache = s.cache)
    (hviews : s'.views = s.views) : Sound ν collision s' := by
  refine ⟨hcollision.trans h.collision, ?_, ?_⟩
  · rw [hcache]
    exact h.cache
  · rw [hviews]
    exact h.views

theorem charge_keeps : Keeps (Sound ν collision) (charge A amount) fun _ => True := by
  intro s hs
  refine ⟨?_, trivial⟩
  show Sound ν collision (charge A amount s).2
  unfold charge
  split
  · exact hs
  · split
    · exact hs.of_eq rfl rfl rfl
    · split
      · exact hs.of_eq rfl rfl rfl
      · exact hs.of_eq rfl rfl rfl

theorem noteFailure_keeps :
    Keeps (Sound ν collision) (noteFailure message : ProofM β Unit) fun _ => True := by
  apply Keeps.modify
  intro s hs
  split
  · exact hs.of_eq rfl rfl rfl
  · exact hs

theorem fail_keeps :
    Keeps (Sound ν collision) (fail message : ProofM β Result) fun r => r = .failure := by
  apply Keeps.bind (noteFailure_keeps message)
  intro _ _
  exact Keeps.pure rfl

theorem charged_keeps {amount : Nat} {next : ProofM β Result} {Q : Result → Prop}
    (hnext : Keeps (Sound ν collision) next Q) (hfailure : Q .failure) :
    Keeps (Sound ν collision) (charged A amount next) Q := by
  apply Keeps.bind (charge_keeps amount)
  intro ok _
  cases ok with
  | true => exact hnext
  | false => exact Keeps.pure hfailure

theorem spend_attempts {amount : Nat} {m : FailureOr β α} (hm : Attempts (Sound ν collision) m Q) :
    Attempts (Sound ν collision) (do spend A amount; m) Q := by
  refine Attempts.bind (P := fun _ => True) ?_ fun _ _ => hm
  apply Attempts.bind (Attempts.lift (charge_keeps amount))
  intro ok _
  cases ok with
  | true => exact Attempts.pure trivial
  | false => exact Attempts.failure

theorem reject_attempts : Attempts (Sound ν collision) (reject message : FailureOr β α) Q := by
  apply Attempts.bind (Attempts.lift (noteFailure_keeps message))
  intro _ _
  exact Attempts.failure

/-- A check that rejects. -/
theorem guard_attempts {p : Prop} [Decidable p] {message : String} {m : FailureOr β α}
    (hm : ¬ p → Attempts (Sound ν collision) m Q) :
    Attempts (Sound ν collision) (if p then reject message else m) Q :=
  Attempts.ite (fun _ => reject_attempts message) hm

theorem orFail_attempts {message : String} {m : FailureOr β α}
    (hm : Attempts (Sound ν collision) m Q) :
    Attempts (Sound ν collision) (orFail message m) Q := by
  apply Keeps.bind hm
  intro result hresult
  cases result with
  | some a => exact Keeps.pure hresult
  | none => exact reject_attempts message

theorem both_attempts {m : FailureOr β α} {n : FailureOr β γ} {P : α → Prop} {Q : γ → Prop}
    (hm : Attempts (Sound ν collision) m P) (hn : Attempts (Sound ν collision) n Q) :
    Attempts (Sound ν collision) (both m n) fun r => P r.1 ∧ Q r.2 := by
  apply Keeps.bind hm
  intro first hfirst
  apply Keeps.bind hn
  intro second hsecond
  cases first with
  | none => exact Keeps.pure fun r hr => nomatch hr
  | some a =>
    cases second with
    | none => exact Keeps.pure fun r hr => nomatch hr
    | some c =>
      apply Keeps.pure
      rintro r ⟨⟩
      exact ⟨hfirst a rfl, hsecond c rfl⟩

theorem callback_attempts {f : β → Option α × β}
    (h : ∀ b a b', f b = (some a, b') → Q a) :
    Attempts (Sound ν collision) (callback f) Q := by
  intro s hs
  refine ⟨hs.of_eq rfl rfl rfl, ?_⟩
  intro a ha
  exact h s.accounting a (f s.accounting).2 (Prod.ext ha rfl)

/-! ## Results -/

theorem appendFact_keeps (derived : List Fact) (fact : Fact) (rest : List Fact)
    (hrest : ∀ f ∈ rest, f ∈ derived) :
    Keeps (Sound ν collision) (appendFact A derived fact rest) fun r =>
      (Result.facts derived).Holds ν → fact.Holds ν → r.Holds ν := by
  induction rest with
  | nil =>
    refine charged_keeps (Keeps.ite ?_ ?_) fun _ _ => trivial
    · intro _
      refine (fail_keeps _).mono ?_
      rintro r rfl _ _
      trivial
    · intro _
      apply Keeps.pure
      intro hderived hfact
      exact List.forall_mem_append.mpr ⟨hderived, List.forall_mem_singleton.mpr hfact⟩
  | cons prior rest ih =>
    refine charged_keeps (Keeps.ite ?_ ?_) fun _ _ => trivial
    · intro _
      exact Keeps.pure fun hderived _ => hderived
    · intro _
      apply Keeps.ite
      · intro hcontra
        apply Keeps.pure
        intro hderived hfact
        have hprior := hderived prior (hrest prior List.mem_cons_self)
        exact contradictory_sound hcontra hprior hfact
      · intro _
        exact ih (List.forall_mem_cons.mp hrest).2

theorem append_keeps :
    Keeps (Sound ν collision) (append A result fact) fun r =>
      result.Holds ν → fact.Holds ν → r.Holds ν := by
  cases result with
  | facts derived => exact appendFact_keeps derived fact derived fun f hf => hf
  | impossible | failure => exact Keeps.pure fun h _ => h

theorem appendAll_keeps (rest : List Fact) :
    Keeps (Sound ν collision) (appendAll A result rest) fun r =>
      result.Holds ν → (∀ f ∈ rest, f.Holds ν) → r.Holds ν := by
  induction rest generalizing result with
  | nil => exact Keeps.pure fun h _ => h
  | cons fact rest ih =>
    apply Keeps.bind (append_keeps result fact)
    intro r hr
    have hstep : result.Holds ν → (∀ f ∈ fact :: rest, f.Holds ν) → r.Holds ν := by
      intro hresult hfacts
      exact hr hresult (hfacts fact List.mem_cons_self)
    cases r with
    | facts derived =>
      apply (ih (.facts derived)).mono
      intro r' hr' hresult hfacts
      exact hr' (hstep hresult hfacts) (List.forall_mem_cons.mp hfacts).2
    | impossible | failure => exact Keeps.pure hstep

/-- What follows from both results. -/
theorem conjunction_keeps (c : Result) :
    Keeps (Sound ν collision) (conjunction A a c) fun r => a.Holds ν → c.Holds ν → r.Holds ν := by
  refine charged_keeps ?_ fun _ _ => trivial
  cases a with
  | failure => exact Keeps.pure fun _ _ => trivial
  | impossible =>
    cases c with
    | failure => exact Keeps.pure fun _ _ => trivial
    | impossible | facts right => exact Keeps.pure fun h _ => h
  | facts left =>
    cases c with
    | failure => exact Keeps.pure fun _ _ => trivial
    | impossible => exact Keeps.pure fun _ h => h
    | facts right => exact charged_keeps (appendAll_keeps _ right) fun _ _ => trivial

theorem occurs_attempts (others : List Fact) :
    Attempts (Sound ν collision) (occurs A fact others) fun found =>
      found = true → fact ∈ others := by
  induction others with
  | nil => exact Attempts.pure fun h => nomatch h
  | cons other rest ih =>
    apply spend_attempts
    apply Attempts.ite
    · rintro rfl
      exact spend_attempts (Attempts.pure fun _ => List.mem_cons_self)
    · intro _
      exact ih.mono fun _ hfound htrue => List.mem_cons_of_mem other (hfound htrue)

theorem common_attempts (left right : List Fact) :
    Attempts (Sound ν collision) (common A right left) fun shared =>
      ∀ f ∈ shared, f ∈ left ∧ f ∈ right := by
  induction left with
  | nil => exact Attempts.pure fun f hf => nomatch hf
  | cons fact rest ih =>
    apply Attempts.bind (occurs_attempts fact right)
    intro found hfound
    apply Attempts.bind ih
    intro others hothers
    apply Attempts.pure
    intro f hf
    cases found with
    | true =>
      rcases List.mem_cons.mp hf with rfl | hf
      · exact ⟨List.mem_cons_self, hfound rfl⟩
      · exact ⟨List.mem_cons_of_mem fact (hothers f hf).1, (hothers f hf).2⟩
    | false => exact ⟨List.mem_cons_of_mem fact (hothers f hf).1, (hothers f hf).2⟩

/-- What follows from either result. -/
theorem alternatives_keeps (c : Result) :
    Keeps (Sound ν collision) (alternatives A a c) fun r => a.Holds ν ∨ c.Holds ν → r.Holds ν := by
  refine charged_keeps ?_ fun _ => trivial
  cases a with
  | failure => exact Keeps.pure fun _ => trivial
  | impossible =>
    cases c with
    | failure => exact Keeps.pure fun _ => trivial
    | impossible => exact charged_keeps (Keeps.pure fun h => h.elim id id) fun _ => trivial
    | facts right =>
      exact charged_keeps (Keeps.pure fun h => h.elim False.elim id) fun _ => trivial
  | facts left =>
    cases c with
    | failure => exact Keeps.pure fun _ => trivial
    | impossible =>
      exact charged_keeps (Keeps.pure fun h => h.elim id False.elim) fun _ => trivial
    | facts right =>
      apply Keeps.bind (common_attempts left right)
      intro shared hshared
      cases shared with
      | none => exact Keeps.pure fun _ => trivial
      | some shared =>
        apply Keeps.pure
        intro h f hf
        obtain ⟨hleft, hright⟩ := hshared shared rfl f hf
        rcases h with h | h
        · exact h f hleft
        · exact h f hright

/-! ## Descriptions and the cache -/

theorem checkView_attempts (view : NodeView) :
    Attempts (Sound ν collision) (checkView view : FailureOr β Unit) fun _ => True := by
  apply guard_attempts
  intro _
  cases view.fullyKnown with
  | none => exact Attempts.pure trivial
  | some known => exact guard_attempts fun _ => guard_attempts fun _ => Attempts.pure trivial

theorem mem_of_lookup {κ τ : Type} [DecidableEq κ] {key : κ} {entries : List (κ × τ)} {entry : τ}
    (h : entries.lookup key = some entry) : (key, entry) ∈ entries := by
  obtain ⟨before, after, rfl, -⟩ := List.lookup_eq_some_iff.mp h
  exact List.mem_append_right before List.mem_cons_self

theorem get_attempts : Attempts (Sound ν collision) (get : FailureOr β (Prover β))
    (Sound ν collision) :=
  Attempts.lift Keeps.get

theorem modify_attempts {f : Prover β → Prover β}
    (h : ∀ s, Sound ν collision s → Sound ν collision (f s)) :
    Attempts (Sound ν collision) (modify f : FailureOr β Unit) fun _ => True :=
  Attempts.lift (Keeps.modify h)

/-- A query under a collision leaves no collision behind, and what it cached is under the
collision. -/
theorem underCollision_attempts {pair : Node × Node} {m : FailureOr β Bool} {Q : Bool → Prop}
    (hm : Attempts (Sound ν (some pair)) m Q) :
    Attempts (Sound ν none) (underCollision pair m) Q := by
  intro s hs
  have hset : Sound ν (some pair) { s with collision := some pair } := ⟨rfl, hs.cache, hs.views⟩
  obtain ⟨hs', hresult⟩ := hm _ hset
  exact ⟨⟨rfl, hs'.cache, hs'.views⟩, hresult⟩

theorem start_sound (accounting : β) : Sound ν none (Prover.start accounting) := by
  refine ⟨rfl, ?_, ?_⟩
  · intro entry hentry
    cases hentry
  · intro entry hentry
    cases hentry

/-! ## Nodes and addresses -/

/-- What a query returns follows from the value of its node. -/
def QuerySound (ν : Node → Word) (collision : Option (Node × Node))
    (query : Node → Bool → ProofM β Result) : Prop :=
  ∀ node polarity, Keeps (Sound ν collision) (query node polarity)
    fun r => r.Follows ν collision (ν node = [.ofBool polarity])

section

variable (hA : Faithful A ν) {query : Node → Bool → ProofM β Result}
  (hquery : QuerySound ν collision query)

include hA

theorem canonical_attempts (node : Node) (depth : Nat) :
    Attempts (Sound ν collision) (canonical A node depth) fun m => ν m = ν node := by
  apply spend_attempts
  cases hf : A.canonicalize with
  | none => exact reject_attempts _
  | some f =>
    refine guard_attempts fun _ => guard_attempts fun _ => ?_
    apply Attempts.bind (callback_attempts fun b m b' => hA.canonicalize f hf node depth b m b')
    intro m hm
    exact guard_attempts fun _ => Attempts.pure hm

theorem describe_attempts (node : Node) :
    Attempts (Sound ν collision) (describe A node) fun view => view.Describes ν node := by
  apply spend_attempts
  apply guard_attempts
  intro _
  apply Attempts.bind get_attempts
  intro s hs
  cases hfound : s.views.lookup node with
  | some view => exact Attempts.pure (hs.views _ (mem_of_lookup hfound))
  | none =>
    cases hf : A.inspect with
    | none => exact Attempts.failure
    | some f =>
      apply Attempts.bind (callback_attempts fun b view b' => hA.inspect f hf node b view b')
      intro view hview
      apply Attempts.bind (checkView_attempts view)
      intro _ _
      apply spend_attempts
      refine Attempts.bind (modify_attempts ?_) fun _ _ => Attempts.pure hview
      intro s hs
      exact ⟨hs.collision, hs.cache, List.forall_mem_cons.mpr ⟨hview, hs.views⟩⟩

theorem width_attempts (node : Node) :
    Attempts (Sound ν collision) (width A node) fun w => ∀ n, w = some n → (ν node).length = n := by
  apply Attempts.bind (describe_attempts hA node)
  intro view hview
  exact Attempts.pure hview.1

theorem constant_attempts (node : Node) (depth : Nat) :
    Attempts (Sound ν collision) (constant A node depth) fun code =>
      ∀ c, code = some c → c.Matches (ν node) := by
  apply Attempts.bind (canonical_attempts hA node depth)
  intro resolved hresolved
  apply Attempts.bind (describe_attempts hA resolved)
  intro view hview
  apply Attempts.pure
  rw [← hresolved]
  exact hview.2.1

theorem sameAddress_attempts (value endpoint : Node) (depth : Nat) :
    Attempts (Sound ν collision) (sameAddress A value endpoint depth) fun same =>
      same = true → ∀ i, (ν value).getD i .zero = (ν endpoint).getD i .zero := by
  apply Attempts.bind (canonical_attempts hA value depth)
  intro resolved hresolved
  apply Attempts.ite
  · intro heq
    apply Attempts.pure
    intro _ i
    rw [← hresolved, heq]
  · intro _
    apply Attempts.bind (both_attempts (constant_attempts hA resolved depth)
      (constant_attempts hA endpoint depth))
    rintro ⟨left, right⟩ ⟨hleft, hright⟩
    cases left with
    | none => exact Attempts.pure fun h => nomatch h
    | some a =>
      cases right with
      | none => exact Attempts.pure fun h => nomatch h
      | some c =>
        apply Attempts.pure
        intro hequal i
        have ha : a.Matches (ν value) := hresolved ▸ hleft a rfl
        exact ha.getD_eq (hright c rfl) (of_decide_eq_true hequal) i

/-- A comparison of the two addresses of a collision cannot be known unequal. -/
theorem collisionComparison_attempts (lhs rhs : Node) (depth : Nat) :
    Attempts (Sound ν collision) (collisionComparison A lhs rhs depth) fun found =>
      found = true → Possible ν collision → ¬ Word.Differ (ν lhs) (ν rhs) := by
  apply Attempts.bind get_attempts
  intro s hs
  rw [hs.collision]
  cases collision with
  | none => exact Attempts.pure fun h => nomatch h
  | some pair =>
    obtain ⟨first, second⟩ := pair
    apply Attempts.bind (both_attempts (sameAddress_attempts hA lhs first depth)
      (sameAddress_attempts hA rhs second depth))
    rintro ⟨a, c⟩ ⟨ha, hc⟩
    apply Attempts.ite
    · intro hac
      obtain ⟨rfl, rfl⟩ : a = true ∧ c = true := Bool.and_eq_true_iff.mp hac
      apply Attempts.pure
      intro _ hpossible hdiffer
      exact hpossible _ rfl (differ_congr (ha rfl) (hc rfl) hdiffer)
    · intro _
      apply Attempts.bind (both_attempts (sameAddress_attempts hA lhs second depth)
        (sameAddress_attempts hA rhs first depth))
      rintro ⟨a, c⟩ ⟨ha, hc⟩
      apply Attempts.pure
      intro hac hpossible hdiffer
      obtain ⟨rfl, rfl⟩ : a = true ∧ c = true := Bool.and_eq_true_iff.mp hac
      exact hpossible _ rfl (differ_symm (differ_congr (ha rfl) (hc rfl) hdiffer))

/-! ## Queries -/

omit hA in
/-- The bit of a node with a known pattern. -/
theorem bit_of_code {code : Constant} (hnode : ν node = [l]) (h : code.Matches (ν node)) :
    l = .ofBool code.truth := by
  rw [hnode] at h
  exact h.bit

omit hA in
/-- The fact of a comparison with a known operand. -/
theorem compareFact_holds {known other selector : Node} {code : Constant} {equal : Bool}
    (hcode : code.Matches (ν known)) (hlen : (ν other).length = (ν known).length)
    (hselector : ν selector = ν other) (heq : Word.eq (ν other) (ν known) = .ofBool equal) :
    Fact.Holds ν ⟨selector, equal, some code.value, code.width⟩ := by
  cases equal with
  | true =>
    show Constant.Matches code (ν selector)
    rw [hselector]
    exact hcode.of_eq_one hlen heq
  | false =>
    refine ⟨ν known, hcode, ?_⟩
    show Word.Differ (ν selector) (ν known)
    rw [hselector]
    exact Word.differ_of_eq_zero heq

/-- The facts of a comparison: `equal` says that the operands are known equal, or known to
differ. -/
theorem requiredCompare_attempts {lhs rhs : Node} (equal : Bool) (depth : Nat)
    (hlen : (ν lhs).length = (ν rhs).length) :
    Attempts (Sound ν collision) (requiredCompare A lhs rhs equal depth)
      fun r => r.Follows ν collision (Word.eq (ν lhs) (ν rhs) = .ofBool equal) := by
  apply Attempts.bind (orFail_attempts (collisionComparison_attempts hA lhs rhs (depth + 1)))
  intro inCollision hcollision
  -- a known inequality is impossible in a collision
  have hresult : Result.Follows ν collision (Word.eq (ν lhs) (ν rhs) = .ofBool equal)
      (if inCollision && !equal then .impossible else .facts []) := by
    intro hpossible heq
    split
    · next hboth =>
      obtain ⟨hin, hne⟩ := Bool.and_eq_true_iff.mp hboth
      cases equal with
      | true => cases hne
      | false => exact hcollision hin hpossible (Word.differ_of_eq_zero heq)
    · intro f hf
      cases hf
  apply Attempts.bind (orFail_attempts (both_attempts (constant_attempts hA lhs (depth + 1))
    (constant_attempts hA rhs (depth + 1))))
  rintro ⟨leftCode, rightCode⟩ ⟨hleft, hright⟩
  cases leftCode with
  | some left =>
    have hleft' : left.Matches (ν lhs) := hleft left rfl
    cases rightCode with
    | some right =>
      have hright' : right.Matches (ν rhs) := hright right rfl
      apply Attempts.pure
      intro hpossible heq
      split
      · next hne =>
        refine hne ?_
        cases equal with
        | true =>
          obtain ⟨hvalue, hwidth⟩ := hleft'.unique (hright'.of_eq_one hlen heq)
          exact decide_eq_true ⟨hwidth, hvalue⟩
        | false =>
          apply decide_eq_false
          rintro ⟨-, hvalue⟩
          exact hleft'.not_differ hright' hvalue (Word.differ_of_eq_zero heq)
      · exact hresult hpossible heq
    | none =>
      apply Attempts.bind (orFail_attempts (canonical_attempts hA rhs (depth + 1)))
      intro selector hselector
      refine Attempts.lift ((append_keeps _ _).mono ?_)
      intro r hr hpossible heq
      have heq' : Word.eq (ν rhs) (ν lhs) = .ofBool equal := (Word.eq_comm _ _).trans heq
      exact hr (hresult hpossible heq) (compareFact_holds hleft' hlen.symm hselector heq')
  | none =>
    cases rightCode with
    | some right =>
      have hright' : right.Matches (ν rhs) := hright right rfl
      apply Attempts.bind (orFail_attempts (canonical_attempts hA lhs (depth + 1)))
      intro selector hselector
      refine Attempts.lift ((append_keeps _ _).mono ?_)
      intro r hr hpossible heq
      exact hr (hresult hpossible heq) (compareFact_holds hright' hlen hselector heq)
    | none => exact Attempts.pure hresult

include hquery

omit hA in
/-- Two queries whose facts are joined: all of them where both premises hold, the common ones where
one of them does. -/
theorem combined_attempts {first second : Node}
    {p q : Bool} {c premise : Prop} [Decidable c]
    (hboth : c → premise → ν first = [.ofBool p] ∧ ν second = [.ofBool q])
    (hone : ¬ c → premise → ν first = [.ofBool p] ∨ ν second = [.ofBool q]) :
    Attempts (Sound ν collision) (do
      let left ← query first p
      let right ← query second q
      if c then conjunction A left right else alternatives A left right : FailureOr β Result)
      fun r => r.Follows ν collision premise := by
  apply Attempts.bind (Attempts.lift (hquery first p))
  intro left hleft
  apply Attempts.bind (Attempts.lift (hquery second q))
  intro right hright
  apply Attempts.ite
  · intro hc
    refine Attempts.lift ((conjunction_keeps left right).mono ?_)
    intro r hr hpossible hpremise
    obtain ⟨hfirst, hsecond⟩ := hboth hc hpremise
    exact hr (hleft hpossible hfirst) (hright hpossible hsecond)
  · intro hc
    refine Attempts.lift ((alternatives_keeps left right).mono ?_)
    intro r hr hpossible hpremise
    exact hr ((hone hc hpremise).imp (hleft hpossible) (hright hpossible))

omit hA in
/-- The facts of a selection between two nodes of which neither is constant. -/
theorem selectArms_attempts {condition yes no : Node} {polarity : Bool} {l a b : Logic}
    (hcondition : ν condition = [l]) (hyes : ν yes = [a]) (hno : ν no = [b]) :
    Attempts (Sound ν collision) (do
      let guardTrue ← query condition true
      let guardFalse ← query condition false
      let yesFacts ← query yes polarity
      let noFacts ← query no polarity
      let selectedTrue ← conjunction A guardTrue yesFacts
      let selectedFalse ← conjunction A guardFalse noFacts
      let common ← conjunction A yesFacts noFacts
      let selected ← alternatives A selectedTrue selectedFalse
      alternatives A selected common : FailureOr β Result)
      fun r => r.Follows ν collision (Logic.select l a b = .ofBool polarity) := by
  apply Attempts.bind (Attempts.lift (hquery condition true))
  intro guardTrue hguardTrue
  apply Attempts.bind (Attempts.lift (hquery condition false))
  intro guardFalse hguardFalse
  apply Attempts.bind (Attempts.lift (hquery yes polarity))
  intro yesFacts hyesFacts
  apply Attempts.bind (Attempts.lift (hquery no polarity))
  intro noFacts hnoFacts
  apply Attempts.bind (Attempts.lift (conjunction_keeps guardTrue yesFacts))
  intro selectedTrue hselectedTrue
  apply Attempts.bind (Attempts.lift (conjunction_keeps guardFalse noFacts))
  intro selectedFalse hselectedFalse
  apply Attempts.bind (Attempts.lift (conjunction_keeps yesFacts noFacts))
  intro shared hshared
  apply Attempts.bind (Attempts.lift (alternatives_keeps selectedTrue selectedFalse))
  intro selected hselected
  refine Attempts.lift ((alternatives_keeps selected shared).mono ?_)
  intro r hr hpossible hselect
  rw [hcondition] at hguardTrue hguardFalse
  rw [hyes] at hyesFacts
  rw [hno] at hnoFacts
  rcases Logic.select_eq_ofBool hselect with ⟨rfl, rfl⟩ | ⟨rfl, rfl⟩ | ⟨rfl, rfl⟩
  · have htrue := hselectedTrue (hguardTrue hpossible rfl) (hyesFacts hpossible rfl)
    exact hr (Or.inl (hselected (Or.inl htrue)))
  · have hfalse := hselectedFalse (hguardFalse hpossible rfl) (hnoFacts hpossible rfl)
    exact hr (Or.inl (hselected (Or.inr hfalse)))
  · exact hr (Or.inr (hshared (hyesFacts hpossible rfl) (hnoFacts hpossible rfl)))

theorem requiredSelect_attempts
    {condition whenTrue whenFalse : Node} {polarity : Bool} (depth : Nat) {l a b : Logic}
    (hcondition : ν condition = [l]) (hwhenTrue : ν whenTrue = [a])
    (hwhenFalse : ν whenFalse = [b]) :
    Attempts (Sound ν collision)
      (requiredSelect A query condition whenTrue whenFalse polarity depth)
      fun r => r.Follows ν collision (Logic.select l a b = .ofBool polarity) := by
  apply Attempts.bind (orFail_attempts (both_attempts (canonical_attempts hA whenTrue (depth + 1))
    (canonical_attempts hA whenFalse (depth + 1))))
  rintro ⟨yes, no⟩ ⟨hyes, hno⟩
  have hyes' : ν yes = [a] := Eq.trans hyes hwhenTrue
  have hno' : ν no = [b] := Eq.trans hno hwhenFalse
  apply Attempts.ite
  · -- both arms are the same node
    rintro rfl
    obtain rfl : a = b := (List.cons.inj (hyes'.symm.trans hno')).1
    refine Attempts.lift ((hquery yes polarity).mono ?_)
    intro r hr hpossible hselect
    refine hr hpossible ?_
    rw [hyes', Logic.eq_of_select_self hselect]
  intro _
  apply Attempts.bind (orFail_attempts (both_attempts (constant_attempts hA yes (depth + 1))
    (constant_attempts hA no (depth + 1))))
  rintro ⟨yesCode, noCode⟩ ⟨hyesCode, hnoCode⟩
  cases yesCode with
  | some yesConstant =>
    obtain rfl := bit_of_code hyes' (hyesCode yesConstant rfl)
    cases noCode with
    | some noConstant =>
      obtain rfl := bit_of_code hno' (hnoCode noConstant rfl)
      apply Attempts.ite
      · intro htruth
        apply Attempts.pure
        intro _ hselect
        rw [← htruth] at hselect
        have hpolarity := Logic.ofBool_inj (Logic.eq_of_select_self hselect)
        rw [if_neg (not_not.mpr hpolarity)]
        intro f hf
        cases hf
      · -- two different constants: the selector is known
        intro htruth
        refine Attempts.lift ((hquery condition _).mono ?_)
        intro r hr hpossible hselect
        refine hr hpossible ?_
        rw [hcondition]
        by_cases hpolarity : yesConstant.truth = polarity
        · subst hpolarity
          rw [((Logic.select_constant_right hselect).1 htruth).1, decide_eq_true rfl]
          rfl
        · rw [((Logic.select_constant_left hselect).1 (Ne.symm hpolarity)).1,
            decide_eq_false hpolarity]
          rfl
    | none =>
      apply combined_attempts hquery
      · intro hne hselect
        obtain ⟨rfl, rfl⟩ := (Logic.select_constant_left hselect).1 hne
        exact ⟨by rw [hcondition, decide_eq_false hne]; rfl, hno'⟩
      · intro heq hselect
        rw [hcondition, hno', decide_eq_true (not_not.mp heq)]
        exact (Logic.select_constant_left hselect).2.imp List.singleton_inj.mpr
          List.singleton_inj.mpr
  | none =>
    cases noCode with
    | some noConstant =>
      obtain rfl := bit_of_code hno' (hnoCode noConstant rfl)
      apply combined_attempts hquery
      · intro hne hselect
        obtain ⟨rfl, rfl⟩ := (Logic.select_constant_right hselect).1 hne
        exact ⟨by rw [hcondition, decide_eq_true hne]; rfl, hyes'⟩
      · intro heq hselect
        rw [hcondition, hyes', decide_eq_false heq]
        exact (Logic.select_constant_right hselect).2.imp List.singleton_inj.mpr
          List.singleton_inj.mpr
    | none => exact selectArms_attempts hquery hcondition hyes' hno'

/-- The facts of an operation follow from the value of its node. -/
theorem requiredView_attempts
    {node : Node} {view : NodeView} (hview : view.Describes ν node) (hwidth : (ν node).length = 1)
    {code : Option Constant} (hcode : ∀ c, code = some c → c.Matches (ν node)) (polarity : Bool)
    (depth : Nat) :
    Attempts (Sound ν collision) (requiredView A query view code polarity depth)
      fun r => r.Follows ν collision (ν node = [.ofBool polarity]) := by
  obtain ⟨-, -, hkind⟩ := hview
  cases code with
  | some c =>
    apply Attempts.pure
    intro _ hnode
    have hmatch := hcode c rfl
    rw [hnode] at hmatch
    rw [if_neg (not_not.mpr (Logic.ofBool_inj hmatch.bit).symm)]
    intro f hf
    cases hf
  | none =>
    split at hkind
    · -- negation
      next operand hnot hoperands =>
      obtain ⟨a, ha⟩ : ∃ a, ν operand = [a] := by
        apply List.length_eq_one_iff.mp
        rw [hkind, List.length_map] at hwidth
        exact hwidth
      simp only [requiredView, hnot, hoperands]
      refine Attempts.lift ((hquery operand (!polarity)).mono ?_)
      intro r hr hpossible hnode
      refine hr hpossible ?_
      rw [ha, hnode] at hkind
      rw [ha, Logic.not_eq_ofBool (List.cons.inj hkind).1.symm]
    · -- conjunction
      next lhs rhs hand hoperands =>
      obtain ⟨a, b, ha, hb, hvalue⟩ := binary_bits hkind hwidth
      simp only [requiredView, hand, hoperands, hvalue]
      apply combined_attempts hquery
      · rintro rfl hnode
        obtain ⟨rfl, rfl⟩ := Logic.and_eq_one.mp (List.cons.inj hnode).1
        exact ⟨ha, hb⟩
      · intro hpolarity hnode
        obtain rfl : polarity = false := Bool.not_eq_true _ ▸ hpolarity
        rcases Logic.and_eq_zero.mp (List.cons.inj hnode).1 with rfl | rfl
        · exact .inl ha
        · exact .inr hb
    · -- disjunction
      next lhs rhs hor hoperands =>
      obtain ⟨a, b, ha, hb, hvalue⟩ := binary_bits hkind hwidth
      simp only [requiredView, hor, hoperands, hvalue]
      apply combined_attempts hquery
      · intro hpolarity hnode
        obtain rfl : polarity = false := by simpa using hpolarity
        obtain ⟨rfl, rfl⟩ := Logic.or_eq_zero.mp (List.cons.inj hnode).1
        exact ⟨ha, hb⟩
      · intro hpolarity hnode
        obtain rfl : polarity = true := by simpa using hpolarity
        rcases Logic.or_eq_one.mp (List.cons.inj hnode).1 with rfl | rfl
        · exact .inl ha
        · exact .inr hb
    · -- selection
      next condition whenTrue whenFalse hselect hoperands =>
      obtain ⟨hlenTrue, hlenFalse, l, hcondition, hvalue⟩ := hkind
      obtain ⟨a, ha⟩ := List.length_eq_one_iff.mp (hlenTrue.trans hwidth)
      obtain ⟨b, hb⟩ := List.length_eq_one_iff.mp (hlenFalse.trans hwidth)
      simp only [requiredView, hselect, hoperands]
      refine (requiredSelect_attempts hA hquery depth hcondition ha hb).mono ?_
      intro r hr hpossible hnode
      refine hr hpossible ?_
      rw [hvalue, ha, hb, Word.select_singleton] at hnode
      exact (List.cons.inj hnode).1
    · -- equality
      next lhs rhs heq hoperands =>
      obtain ⟨hlen, hvalue⟩ := hkind
      simp only [requiredView, heq, hoperands, hvalue]
      refine (requiredCompare_attempts hA polarity depth hlen).mono ?_
      intro r hr hpossible hnode
      exact hr hpossible (List.cons.inj hnode).1
    · -- inequality
      next lhs rhs hne hoperands =>
      obtain ⟨hlen, hvalue⟩ := hkind
      simp only [requiredView, hne, hoperands, hvalue]
      refine (requiredCompare_attempts hA (!polarity) depth hlen).mono ?_
      intro r hr hpossible hnode
      exact hr hpossible (Logic.not_eq_ofBool (List.cons.inj hnode).1)
    · -- no operation the proof knows
      next hnot hand hor hselect heq hne =>
      simp only [requiredView]
      apply Attempts.pure
      intro _ _ f hf
      cases hf

/-- A new query is cached with a result that follows from it. -/
theorem requiredNew_attempts
    {key : QueryKey} (hkey : key.collision = collision) (depth : Nat) :
    Attempts (Sound ν collision) (requiredNew A query key depth)
      fun r => r.Follows ν collision (ν key.value = [.ofBool key.polarity]) := by
  apply Attempts.bind get_attempts
  intro _ _
  apply guard_attempts
  intro _
  refine Attempts.bind (modify_attempts ?_) ?_
  · intro s hs
    exact hs.of_eq rfl rfl rfl
  intro _ _
  apply Attempts.bind get_attempts
  intro _ _
  apply guard_attempts
  intro _
  apply Attempts.bind (orFail_attempts (width_attempts hA key.value))
  intro count hcount
  apply guard_attempts
  intro hone
  have hwidth : (ν key.value).length = 1 := hcount 1 (not_not.mp hone)
  apply Attempts.bind (orFail_attempts (describe_attempts hA key.value))
  intro view hview
  apply spend_attempts
  apply Attempts.bind (orFail_attempts (constant_attempts hA key.value depth))
  intro code hcode
  apply Attempts.bind (requiredView_attempts hA hquery hview hwidth hcode key.polarity depth)
  intro found hfound
  apply Attempts.bind (Attempts.lift (append_keeps found _))
  intro result hresult
  have hfollows : result.Follows ν collision (ν key.value = [.ofBool key.polarity]) := by
    intro hpossible hnode
    exact hresult (hfound hpossible hnode) hnode
  refine Attempts.bind (modify_attempts ?_) ?_
  · intro s hs
    exact hs.of_eq rfl rfl rfl
  intro _ _
  apply Attempts.ite
  · intro _
    exact Attempts.pure fun _ _ => trivial
  intro _
  apply spend_attempts
  refine Attempts.bind (modify_attempts ?_) fun _ _ => Attempts.pure hfollows
  intro s hs
  refine ⟨hs.collision, List.forall_mem_cons.mpr ⟨?_, hs.cache⟩, hs.views⟩
  rw [hkey]
  exact hfollows

/-- A result from the cache was derived under the collision of its key, which is the current one. -/
theorem requiredAt_attempts
    (original : Node) (polarity : Bool) (depth : Nat) :
    Attempts (Sound ν collision) (requiredAt A query original polarity depth)
      fun r => r.Follows ν collision (ν original = [.ofBool polarity]) := by
  apply spend_attempts
  apply Attempts.bind (orFail_attempts (canonical_attempts hA original depth))
  intro value hvalue
  rw [← hvalue]
  apply Attempts.bind get_attempts
  intro s hs
  dsimp only
  cases hfound : s.cache.lookup ⟨s.collision, value, polarity⟩ with
  | some found =>
    refine spend_attempts (Attempts.pure ?_)
    have hentry := hs.cache _ (mem_of_lookup hfound)
    rw [hs.collision] at hentry
    exact hentry
  | none => exact requiredNew_attempts hA hquery hs.collision depth

omit hquery

/-- Run lemma: the facts of a query follow from it, at every depth. -/
theorem required_keeps (fuel : Nat) :
    QuerySound ν collision (required A fuel) := by
  induction fuel with
  | zero =>
    intro node polarity
    refine charged_keeps ((fail_keeps _).mono ?_) fun _ _ => trivial
    rintro r rfl _ _
    trivial
  | succ fuel ih =>
    intro node polarity
    apply Keeps.bind (requiredAt_attempts hA ih node polarity (127 - fuel))
    intro result hresult
    cases result with
    | some r => exact Keeps.pure (hresult r rfl)
    | none => exact Keeps.pure fun _ _ => trivial

theorem disjoint_attempts (first second : Node) :
    Attempts (Sound ν collision) (disjoint A first second) fun found =>
      found = true → Possible ν collision → ¬ (ν first = [.one] ∧ ν second = [.one]) := by
  apply spend_attempts
  apply Attempts.bind (Attempts.lift (required_keeps hA 128 first true))
  intro left hleft
  apply Attempts.bind (Attempts.lift (required_keeps hA 128 second true))
  intro right hright
  apply Attempts.bind (Attempts.lift (conjunction_keeps left right))
  intro together htogether
  cases together with
  | failure => exact Attempts.failure
  | facts derived => exact Attempts.pure fun h => nomatch h
  | impossible =>
    apply Attempts.pure
    rintro _ hpossible ⟨hfirst, hsecond⟩
    exact htogether (hleft hpossible hfirst) (hright hpossible hsecond)

theorem disjointAtAddress_attempts (first second firstIndex secondIndex : Node) :
    Attempts (Sound ν none) (disjointAtAddress A first second firstIndex secondIndex) fun found =>
      found = true → ¬ Word.Differ (ν firstIndex) (ν secondIndex) →
        ¬ (ν first = [.one] ∧ ν second = [.one]) := by
  apply Attempts.bind (both_attempts (canonical_attempts hA firstIndex 0)
    (canonical_attempts hA secondIndex 0))
  rintro ⟨left, right⟩ ⟨hleft, hright⟩
  -- the addresses of the collision are those of the two indices
  have hcollision : Attempts (Sound ν none) (underCollision (left, right) (disjoint A first second))
      fun found => found = true → ¬ Word.Differ (ν firstIndex) (ν secondIndex) →
        ¬ (ν first = [.one] ∧ ν second = [.one]) := by
    apply underCollision_attempts
    refine (disjoint_attempts hA first second).mono ?_
    intro found hfound htrue hdiffer
    refine hfound htrue ?_
    rintro p ⟨⟩
    rw [← hleft, ← hright] at hdiffer
    exact hdiffer
  apply Attempts.bind (both_attempts
    (both_attempts (constant_attempts hA left 0) (constant_attempts hA right 0))
    (both_attempts (width_attempts hA left) (width_attempts hA right)))
  rintro ⟨⟨leftCode, rightCode⟩, leftWidth, rightWidth⟩ ⟨⟨hleftCode, hrightCode⟩, -⟩
  apply guard_attempts
  intro _
  cases leftCode with
  | some a =>
    cases rightCode with
    | some c =>
      apply Attempts.ite
      · intro hne
        apply Attempts.pure
        intro _ hdiffer
        have ha : a.Matches (ν firstIndex) := hleft ▸ hleftCode a rfl
        have hc : c.Matches (ν secondIndex) := hright ▸ hrightCode c rfl
        have hvalue : a.value ≠ c.value := by
          intro heq
          simp [equalConstants, heq] at hne
        exact absurd (ha.differ hc hvalue) hdiffer
      · intro _
        exact hcollision
    | none => exact hcollision
  | none =>
    cases rightCode with
    | some c => exact hcollision
    | none =>
      apply Attempts.ite
      · intro _
        exact Attempts.pure fun h => nomatch h
      · intro _
        exact hcollision

/-- Step lemma: a query keeps the proof object sound. -/
theorem ask_sound (q : Query) (hs : Sound ν none s) :
    Sound ν none ((ask A q).run.run s).2 := by
  cases q with
  | disjoint first second => exact (disjoint_attempts hA first second s hs).1
  | disjointAtAddress first second firstIndex secondIndex =>
    exact (disjointAtAddress_attempts hA first second firstIndex secondIndex s hs).1

/-- Run lemma: so do any earlier queries. -/
theorem afterQueries_sound (earlier : List Query)
    (hs : Sound ν none s) : Sound ν none (afterQueries A earlier s) := by
  induction earlier generalizing s with
  | nil => exact hs
  | cons q rest ih => exact ih (ask_sound hA q hs)

end

/-- The answers of one proof object, after any earlier queries. Enables that it finds disjoint are
not both one in any valuation of the graph; enables that it finds disjoint at two addresses are not
both one in a valuation where the addresses are not known to differ. -/
theorem grantProof_sound (A : Adapter β) (ν : Node → Word) (hA : Faithful A ν) (accounting : β)
    (earlier : List Query) :
    (∀ a b, answer A (.disjoint a b) (afterQueries A earlier (.start accounting)) = some true →
      ¬ (ν a = [.one] ∧ ν b = [.one])) ∧
    (∀ a b addressA addressB,
      answer A (.disjointAtAddress a b addressA addressB)
        (afterQueries A earlier (.start accounting)) = some true →
      ¬ (ν a = [.one] ∧ ν b = [.one] ∧ ¬ Word.Differ (ν addressA) (ν addressB))) := by
  have hs := afterQueries_sound hA earlier (start_sound (ν := ν) accounting)
  refine ⟨?_, ?_⟩
  · intro a b hanswer
    refine (disjoint_attempts hA a b _ hs).2 true hanswer rfl ?_
    intro p hp
    cases hp
  · rintro a b addressA addressB hanswer ⟨ha, hb, hdiffer⟩
    exact (disjointAtAddress_attempts hA a b addressA addressB _ hs).2 true hanswer rfl hdiffer
      ⟨ha, hb⟩

/-! ## An instance -/

/-- A graph of an enable 0, its negation 1, two addresses 2 and 3, and their comparison 4. -/
def sampleView (node : Node) : Option NodeView :=
  if node = 0 then some ⟨.raw, [], some 1, none⟩
  else if node = 1 then some ⟨.not, [0], some 1, none⟩
  else if node = 2 ∨ node = 3 then some ⟨.raw, [], some 2, none⟩
  else if node = 4 then some ⟨.ne, [2, 3], some 1, none⟩
  else none

def sampleAdapter : Adapter Unit where
  canonicalize := some fun node _ b => (some node, b)
  inspect := some fun node b => (sampleView node, b)
  debit := some fun _ b => (true, b)

/-- The enable is one; the addresses differ in a known bit. -/
def sampleWords (node : Node) : Word :=
  if node = 0 ∨ node = 4 then [.one]
  else if node = 1 then [.zero]
  else if node = 2 then [.one, .x]
  else [.zero, .x]

theorem sampleWords_faithful : Faithful sampleAdapter sampleWords := by
  refine ⟨?_, ?_⟩
  · rintro f ⟨⟩ node depth b m b' ⟨⟩
    rfl
  · rintro f ⟨⟩ node b view b' h
    have hview : sampleView node = some view := (Prod.mk.inj h).1
    unfold sampleView at hview
    split at hview
    · next hnode =>
      subst hnode
      cases hview
      refine ⟨?_, nofun, trivial⟩
      rintro w ⟨⟩
      rfl
    · split at hview
      · next hnode =>
        subst hnode
        cases hview
        refine ⟨?_, nofun, rfl⟩
        rintro w ⟨⟩
        rfl
      · split at hview
        · next hnode =>
          cases hview
          refine ⟨?_, nofun, trivial⟩
          rintro w ⟨⟩
          rcases hnode with rfl | rfl <;> rfl
        · split at hview
          · next hnode =>
            subst hnode
            cases hview
            refine ⟨?_, nofun, rfl, rfl⟩
            rintro w ⟨⟩
            rfl
          · cases hview

/-- The enable and its negation are disjoint, and no enable is one with the inequality of two
addresses while these are not known to differ. -/
theorem grantProof_sound_sample :
    ¬ (sampleWords 0 = [.one] ∧ sampleWords 1 = [.one]) ∧
      ¬ (sampleWords 0 = [.one] ∧ sampleWords 4 = [.one] ∧
        ¬ Word.Differ (sampleWords 2) (sampleWords 3)) := by
  obtain ⟨hdisjoint, haddress⟩ := grantProof_sound sampleAdapter sampleWords sampleWords_faithful ()
    [.disjointAtAddress 0 4 3 2]
  exact ⟨hdisjoint 0 1 (by decide +kernel), haddress 0 4 2 3 (by decide +kernel)⟩

end

end PyCircuit.Grant
