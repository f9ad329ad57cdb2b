import PyCircuit.Commit.Domains
import PyCircuit.Lib.Exclusive

/-!
# Commits of unordered writers

The writers of an owner that `proveWriteDomainsDisjoint` accepts never write a leaf together: at
most one of them is enabled with a domain that covers the leaf. So the commits of the writers, one
after the other, leave in every leaf the value of that writer, or the old value, in whatever order
they are made.

The proof follows the grants: a grant is one when its candidate is enabled and its domain is taken
(`grantWriters_built`), separate grants are not one together at one address
(`separatedAll_attempts`), and two domains that cover one leaf do not part at a field and have the
same address (`covered_compare`, `covered_table`).
-/

set_option autoImplicit false

namespace PyCircuit.Commit

open PyCircuit.Lib PyCircuit.Grant

/-! ## Valuations of a netlist -/

/-- The valuation is one of the netlist. -/
def Netlist.Models (g : Netlist) (ν : Node → Word) : Prop :=
  ∀ node view, g.view node = some view → view.Describes ν node

/-- The operands of bound nodes are bound. -/
def Netlist.Closed (g : Netlist) : Prop :=
  ∀ view ∈ g.views, ∀ n ∈ view.operands, n < g.size

instance (g : Netlist) : Decidable g.Closed :=
  inferInstanceAs (Decidable (∀ view ∈ g.views, ∀ n ∈ view.operands, (n : Nat) < g.size))

/-- The nodes of a candidate are bound and have their types, and its fire is the last admission
prefix of its rule. -/
structure Candidate.Bound {g : Netlist} {owner : Ty} (ν : Node → Word) (c : Candidate g owner) :
    Prop where
  intent : c.intent < g.size ∧ (ν c.intent).length = 1
  paths : ∀ d ∈ c.domains, d.path < g.size ∧ (ν d.path).length = 1
  indices : ∀ d ∈ c.domains, ∀ i, d.index = some i → i < g.size
  raws : ∀ control ∈ c.controls, control.raw < g.size ∧ (ν control.raw).length = 1
  fired : ν c.fire = [admission ν c.controls]

/-- A valuation of the circuit of the candidates. -/
structure Circuit {g : Netlist} {owner : Ty} (ν : Node → Word)
    (candidates : List (Candidate g owner)) : Prop where
  models : g.Models ν
  closed : g.Closed
  bound : ∀ c ∈ candidates, c.Bound ν

section

variable {g : Netlist} {owner : Ty} {ν μ : Node → Word}

theorem bit_eq_one {w : Word} (hlen : w.length = 1) (h : w.bit = .one) : w = [.one] := by
  obtain ⟨l, rfl⟩ := List.length_eq_one_iff.mp hlen
  exact congrArg (fun l => [l]) h

variable {node : Node} {view : NodeView} {α : Type} {c : Candidate g owner} {built built' : Netlist}
  {μ' : Node → Word} {d : Domain owner} {grants : List Grant} {p : List Selector} {ty : Ty}
  {l : Leaf owner}

/-- The operands of a conjunction that is one are one. -/
theorem and_one {a b : Node} (hview : view.Describes ν node)
    (hkind : view.kind = .and) (hoperands : view.operands = [a, b]) (h : ν node = [.one]) :
    ν a = [.one] ∧ ν b = [.one] := by
  obtain ⟨-, -, hop⟩ := hview
  rw [hkind, hoperands] at hop
  have hwidth : (ν node).length = 1 := by rw [h]; rfl
  obtain ⟨l, r, hl, hr, hvalue⟩ := binary_bits hop hwidth
  rw [h] at hvalue
  obtain ⟨rfl, rfl⟩ := Logic.and_eq_one.mp (List.cons.inj hvalue).1.symm
  exact ⟨hl, hr⟩

theorem not_one {a : Node} (hview : view.Describes ν node)
    (hkind : view.kind = .not) (hoperands : view.operands = [a]) (h : ν node = [.one]) :
    ν a = [.zero] := by
  obtain ⟨-, -, hop⟩ := hview
  rw [hkind, hoperands] at hop
  have hop' : [.one] = (ν a).map Logic.not := h ▸ hop
  cases hw : ν a with
  | nil =>
    rw [hw] at hop'
    cases hop'
  | cons l rest =>
    rw [hw] at hop'
    obtain ⟨hl, hrest⟩ := List.cons.inj hop'
    rw [Logic.not_eq_ofBool (p := true) hl.symm, List.map_eq_nil_iff.mp hrest.symm]
    rfl

/-! ## Applicable guards -/

/-- A literal that a path contains holds where the path is one. -/
theorem contains_sound (hg : g.Models ν) {condition : Node} {polarity : Bool} (fuel : Nat)
    (h : contains g condition polarity fuel node = some true)
    (hnode : ν node = [.one]) : ν condition = [.ofBool polarity] := by
  induction fuel generalizing node with
  | zero => cases h
  | succ fuel ih =>
    rw [contains] at h
    split at h
    · next hsame =>
      obtain ⟨hpolarity, hsame⟩ := Bool.and_eq_true_iff.mp hsame
      rw [← of_decide_eq_true hsame, hnode, hpolarity]
      rfl
    · split at h
      · cases h
      · next view hview =>
        have hdescribes := hg node view hview
        split at h
        · next raw hkind hoperands =>
          split at h
          · cases h
          · next hpolarity =>
            have hraw : raw = condition := of_decide_eq_true (Option.some.inj h)
            rw [← hraw, Bool.eq_false_of_not_eq_true hpolarity]
            exact not_one hdescribes hkind hoperands hnode
        · next lhs rhs hkind hoperands =>
          obtain ⟨hlhs, hrhs⟩ := and_one hdescribes hkind hoperands hnode
          split at h
          · exact ih h hrhs
          · exact ih h hlhs
        · cases h

theorem applicable_sound (hg : g.Models ν) {path : Node} (hpath : ν path = [.one]) (fuel : Nat)
    {execution : List (Node × Bool)} (h : applicable g path fuel execution = some true) :
    ∀ step ∈ execution, ν step.1 = [.ofBool step.2] := by
  induction execution generalizing fuel with
  | nil => exact List.forall_mem_nil _
  | cons step outer ih =>
    obtain ⟨condition, whenTrue⟩ := step
    cases fuel with
    | zero => cases h
    | succ fuel =>
      rw [applicable] at h
      split at h
      · next hcontains =>
        exact List.forall_mem_cons.mpr ⟨contains_sound hg 129 hcontains hpath, ih fuel h⟩
      · next hother => exact absurd h hother

theorem armPath_one {execution : List (Node × Bool)}
    (h : ∀ step ∈ execution, ν step.1 = [.ofBool step.2]) : armPath ν execution = .one := by
  induction execution with
  | nil => rfl
  | cons step outer ih =>
    obtain ⟨condition, whenTrue⟩ := step
    have hcondition : ν condition = [.ofBool whenTrue] := h _ List.mem_cons_self
    rw [armPath, ih (List.forall_mem_cons.mp h).2, hcondition]
    show Logic.and .one (Logic.caseEq (.ofBool whenTrue) (.ofBool whenTrue)) = .one
    rw [Logic.caseEq, decide_eq_true rfl]
    rfl

theorem foldl_and_eq_one {f : α → Logic} {items : List α} {acc : Logic}
    (h : items.foldl (fun admitted c => admitted.and (f c)) acc = .one) :
    acc = .one ∧ ∀ c ∈ items, f c = .one := by
  induction items generalizing acc with
  | nil => exact ⟨h, fun c hc => nomatch hc⟩
  | cons first rest ih =>
    obtain ⟨hacc, hrest⟩ := ih h
    obtain ⟨hacc, hfirst⟩ := Logic.and_eq_one.mp hacc
    exact ⟨hacc, List.forall_mem_cons.mpr ⟨hfirst, hrest⟩⟩

/-- When a rule fires, a guard on the executed path is one. -/
theorem admission_guard {controls : List SampledControl} (h : admission ν controls = .one)
    {control : SampledControl} (hmem : control ∈ controls) (hkind : control.kind = .guard)
    (hpath : ∀ step ∈ control.executionPath, ν step.1 = [.ofBool step.2]) :
    (ν control.raw).bit = .one := by
  have hone := (foldl_and_eq_one h).2 control hmem
  rw [armPath_one hpath, Logic.select_one, SampledControl.accepted, hkind] at hone
  exact of_decide_eq_true (Logic.ofBool_eq_one.mp hone)

/-- An enabled candidate has fired and intends to write. -/
theorem Candidate.enabled (hg : g.Models ν) (hc : c.Bound ν)
    (h : (ν c.enable).bit = .one) :
    admission ν c.controls = .one ∧ ν c.intent = [.one] := by
  obtain ⟨view, hview, hkind, hoperands⟩ := c.wired
  have hdescribes := hg _ view hview
  have hlen : (ν c.enable).length = 1 := by
    obtain ⟨-, -, hop⟩ := hdescribes
    rw [hkind, hoperands] at hop
    rw [← hop.1, hc.fired]
    rfl
  obtain ⟨hfire, hintent⟩ := and_one hdescribes hkind hoperands (bit_eq_one hlen h)
  rw [hc.fired] at hfire
  exact ⟨(List.cons.inj hfire).1, hintent⟩

/-! ## Synthetic nodes -/

/-- A netlist built from `g`, and a valuation of it that extends `ν`. -/
structure Built (g : Netlist) (ν : Node → Word) (built : Netlist) (μ : Node → Word) : Prop where
  models : built.Models μ
  closed : built.Closed
  grows : g.size ≤ built.size
  agrees : ∀ k < g.size, μ k = ν k

theorem describes_congr (h : view.Describes ν node)
    (hnode : μ node = ν node) (hoperands : ∀ n ∈ view.operands, μ n = ν n) :
    view.Describes μ node := by
  obtain ⟨hwidth, hknown, hop⟩ := h
  refine ⟨hnode.symm ▸ hwidth, hnode.symm ▸ hknown, ?_⟩
  -- whatever the operation, its value is a function of the words of its operands
  split at hop
  all_goals try trivial
  all_goals
    rename_i hops
    simp only [hops, List.forall_mem_cons] at hoperands
    simpa only [hnode, hoperands] using hop

theorem view_mem {g : Netlist} (h : g.view node = some view) :
    node < g.size ∧ view ∈ g.views := by
  obtain ⟨hlt, hget⟩ := List.getElem?_eq_some_iff.mp h
  exact ⟨hlt, hget ▸ List.getElem_mem hlt⟩

theorem size_combine (built : Netlist) (left right : Node) :
    (built.combine left right).1.size = built.size + 1 := List.length_append

theorem view_combine {left right : Node}
    (h : (built.combine left right).1.view node = some view) :
    built.view node = some view ∨
      node = built.size ∧ view = ⟨.and, [left, right], some 1, none⟩ := by
  have happend : (built.views ++ [⟨.and, [left, right], some 1, none⟩])[node]? = some view := h
  by_cases hlt : node < built.size
  · rw [List.getElem?_append_left hlt] at happend
    exact Or.inl happend
  · have hnode : node = built.size := by
      have hbound := (view_mem h).1
      rw [size_combine] at hbound
      exact Nat.le_antisymm (Nat.le_of_lt_succ hbound) (Nat.not_lt.mp hlt)
    subst hnode
    rw [Netlist.size, List.getElem?_append_right (Nat.le_refl _), Nat.sub_self] at happend
    exact Or.inr ⟨rfl, (Option.some.inj happend).symm⟩

/-- A synthetic conjunction extends the valuation by one word. -/
theorem combine_built (h : Built g ν built μ)
    {left right : Node} {a b : Logic} (hleft : left < built.size) (hright : right < built.size)
    (ha : μ left = [a]) (hb : μ right = [b]) (hold : ∀ k < built.size, μ' k = μ k)
    (hnew : μ' built.size = [a.and b]) : Built g ν (built.combine left right).1 μ' := by
  refine ⟨?_, ?_, ?_, ?_⟩
  · intro node view hview
    rcases view_combine hview with hview | ⟨rfl, rfl⟩
    · obtain ⟨hlt, hmem⟩ := view_mem hview
      refine describes_congr (h.models node view hview) (hold node hlt) ?_
      intro n hn
      exact hold n (h.closed view hmem n hn)
    · have ha' := (hold left hleft).trans ha
      have hb' := (hold right hright).trans hb
      refine ⟨?_, nofun, ?_⟩
      · rintro w ⟨⟩
        rw [hnew]
        rfl
      · show (μ' left).length = (μ' built.size).length ∧ (μ' right).length = _ ∧
          μ' built.size = List.zipWith Logic.and (μ' left) (μ' right)
        rw [hnew, ha', hb']
        exact ⟨rfl, rfl, rfl⟩
  · intro view hmem n hn
    rw [size_combine]
    rcases List.mem_append.mp hmem with hmem | hmem
    · exact Nat.lt_succ_of_lt (h.closed view hmem n hn)
    · rw [List.mem_singleton.mp hmem] at hn
      rcases List.mem_cons.mp hn with rfl | hn
      · exact Nat.lt_succ_of_lt hleft
      · rw [List.mem_singleton.mp hn]
        exact Nat.lt_succ_of_lt hright
  · rw [size_combine]
    exact Nat.le_succ_of_le h.grows
  · intro k hk
    rw [hold k (Nat.lt_of_lt_of_le hk h.grows)]
    exact h.agrees k hk

/-- Later synthetic nodes leave a netlist and its valuation as they are. -/
def Later (built : Netlist) (μ : Node → Word) (built' : Netlist) (μ' : Node → Word) : Prop :=
  built.size ≤ built'.size ∧ ∀ k < built.size, μ' k = μ k

theorem Later.refl (built : Netlist) (μ : Node → Word) : Later built μ built μ :=
  ⟨Nat.le_refl _, fun _ _ => rfl⟩

theorem Later.trans {built'' : Netlist} {μ μ'' : Node → Word}
    (h : Later built μ built' μ') (h' : Later built' μ' built'' μ'') :
    Later built μ built'' μ'' := by
  refine ⟨Nat.le_trans h.1 h'.1, ?_⟩
  intro k hk
  rw [h'.2 k (Nat.lt_of_lt_of_le hk h.1), h.2 k hk]

/-- The path of a grant is one when the path of the domain and the applicable guards are. -/
theorem joinGuards_built {domainPath : Node} {controls : List SampledControl}
    {path : Node} {path' : Node}
    (hraws : ∀ control ∈ controls, control.raw < g.size ∧ (ν control.raw).length = 1)
    (hbuilt : Built g ν built μ) (hpath : path < built.size) (hlen : (μ path).length = 1)
    (h : joinGuards g domainPath controls built path = some (built', path')) :
    ∃ μ', Built g ν built' μ' ∧ Later built μ built' μ' ∧ path' < built'.size ∧
      (μ path = [.one] →
        (∀ control ∈ controls, control.kind = .guard →
          applicable g domainPath 129 control.executionPath = some true →
            ν control.raw = [.one]) → μ' path' = [.one]) := by
  induction controls generalizing built path μ with
  | nil =>
    obtain ⟨rfl, rfl⟩ := Prod.mk.inj (Option.some.inj h)
    exact ⟨μ, hbuilt, Later.refl _ _, hpath, fun hone _ => hone⟩
  | cons control rest ih =>
    have hrest : ∀ control ∈ rest, control.raw < g.size ∧ (ν control.raw).length = 1 :=
      (List.forall_mem_cons.mp hraws).2
    rw [joinGuards] at h
    split at h
    · obtain ⟨μ', hb, hl, hp, hone⟩ := ih hrest hbuilt hpath hlen h
      exact ⟨μ', hb, hl, hp, fun h1 h2 =>
        hone h1 (List.forall_mem_cons.mp h2).2⟩
    · next hkind =>
      split at h
      · cases h
      · obtain ⟨μ', hb, hl, hp, hone⟩ := ih hrest hbuilt hpath hlen h
        exact ⟨μ', hb, hl, hp, fun h1 h2 =>
          hone h1 (List.forall_mem_cons.mp h2).2⟩
      · next happlicable =>
        obtain ⟨hraw, hrawLen⟩ := hraws control List.mem_cons_self
        have hraw' := Nat.lt_of_lt_of_le hraw hbuilt.grows
        obtain ⟨a, ha⟩ := List.length_eq_one_iff.mp hlen
        obtain ⟨b, hb⟩ := List.length_eq_one_iff.mp hrawLen
        have hb' : μ control.raw = [b] := (hbuilt.agrees _ hraw).trans hb
        let μ₁ : Node → Word := fun k => if k = built.size then [a.and b] else μ k
        have hold : ∀ k < built.size, μ₁ k = μ k := fun k hk => if_neg (Nat.ne_of_lt hk)
        have hnew : μ₁ built.size = [a.and b] := if_pos rfl
        have hcombined : Built g ν (built.combine path control.raw).1 μ₁ :=
          combine_built hbuilt hpath hraw' ha hb' hold hnew
        have hlt : built.size < (built.combine path control.raw).1.size := by
          rw [size_combine]
          exact Nat.lt_succ_self _
        have hlen₁ : (μ₁ built.size).length = 1 := by
          rw [hnew]
          rfl
        obtain ⟨μ', hbuilt', hlater, hp, hone⟩ := ih hrest hcombined hlt hlen₁ h
        refine ⟨μ', hbuilt', Later.trans ⟨Nat.le_of_lt hlt, hold⟩ hlater, hp, ?_⟩
        intro hpathOne hguards
        refine hone ?_ (List.forall_mem_cons.mp hguards).2
        have hguard := hguards control List.mem_cons_self (not_not.mp hkind) happlicable
        rw [ha] at hpathOne
        rw [hb] at hguard
        rw [hnew, (List.cons.inj hpathOne).1, (List.cons.inj hguard).1]
        rfl

/-! ## Grants -/

/-- The grant is that of the domain, and one when its candidate is enabled and the domain taken. -/
structure Granted (ν : Node → Word) (c : Candidate g owner) (built : Netlist) (μ : Node → Word)
    (d : Domain owner) (grant : Grant) : Prop where
  selectors : grant.selectors = d.selectors
  index : grant.index = d.index
  bound : grant.path < built.size
  one : (ν c.enable).bit = .one → ν d.path = [.one] → μ grant.path = [.one]

theorem Granted.later {μ : Node → Word}
    {grant : Grant} (h : Granted ν c built μ d grant)
    (hlater : Later built μ built' μ') : Granted ν c built' μ' d grant := by
  refine ⟨h.selectors, h.index, Nat.lt_of_lt_of_le h.bound hlater.1, ?_⟩
  intro henable hpath
  rw [hlater.2 _ h.bound]
  exact h.one henable hpath

theorem grantDomains_built (hg : g.Models ν) (hc : c.Bound ν)
    {domains : List (Domain owner)}
    (hpaths : ∀ d ∈ domains, d.path < g.size ∧ (ν d.path).length = 1)
    (hbuilt : Built g ν built μ)
    (h : grantDomains g c.controls domains built = some (built', grants)) :
    ∃ μ', Built g ν built' μ' ∧ Later built μ built' μ' ∧
      List.Forall₂ (Granted ν c built' μ') domains grants := by
  induction domains generalizing built μ grants with
  | nil =>
    obtain ⟨rfl, rfl⟩ := Prod.mk.inj (Option.some.inj h)
    exact ⟨μ, hbuilt, Later.refl _ _, List.Forall₂.nil⟩
  | cons d rest ih =>
    rw [grantDomains] at h
    split at h
    · cases h
    · next built₁ path hjoin =>
      split at h
      · cases h
      · next built₂ others hothers =>
        obtain ⟨rfl, rfl⟩ := Prod.mk.inj (Option.some.inj h)
        obtain ⟨hpath, hlen⟩ := hpaths d List.mem_cons_self
        have hagree : μ d.path = ν d.path := hbuilt.agrees _ hpath
        obtain ⟨μ₁, hbuilt₁, hlater₁, hpath₁, hone⟩ := joinGuards_built hc.raws hbuilt
          (Nat.lt_of_lt_of_le hpath hbuilt.grows) (hagree.symm ▸ hlen) hjoin
        obtain ⟨μ₂, hbuilt₂, hlater₂, hgranted⟩ := ih
          (List.forall_mem_cons.mp hpaths).2 hbuilt₁ hothers
        refine ⟨μ₂, hbuilt₂, hlater₁.trans hlater₂, List.Forall₂.cons ?_ hgranted⟩
        have hfirst : Granted ν c built₁ μ₁ d ⟨d.selectors, d.index, path⟩ := by
          refine ⟨rfl, rfl, hpath₁, ?_⟩
          intro henable hdomain
          refine hone (hagree.trans hdomain) ?_
          -- an applicable guard was executed, so it is one
          intro control hmem hkind happlicable
          have hfired := (Candidate.enabled hg hc henable).1
          have hexecuted := applicable_sound hg hdomain 129 happlicable
          exact bit_eq_one (hc.raws control hmem).2
            (admission_guard hfired hmem hkind hexecuted)
        exact hfirst.later hlater₂

/-- The domains under which a candidate is granted. -/
def Candidate.granted (c : Candidate g owner) : List (Domain owner) :=
  if c.domains.isEmpty then [implicitDomain owner c.intent] else c.domains

theorem rawIntent_eq (c : Candidate g owner) : rawIntent g c.enable = some c.intent := by
  obtain ⟨view, hview, hkind, hoperands⟩ := c.wired
  rw [rawIntent, hview]
  simp only [hkind, hoperands]

theorem grantCandidate_built (hg : g.Models ν) (hc : c.Bound ν)
    (hbuilt : Built g ν built μ)
    (h : grantCandidate g c built = some (built', grants)) :
    ∃ μ', Built g ν built' μ' ∧ Later built μ built' μ' ∧
      List.Forall₂ (Granted ν c built' μ') c.granted grants := by
  rw [grantCandidate, rawIntent_eq] at h
  unfold Candidate.granted
  split at h
  · next hempty =>
    rw [if_pos hempty]
    exact grantDomains_built hg hc (List.forall_mem_singleton.mpr hc.intent) hbuilt h
  · next hempty =>
    rw [if_neg hempty]
    exact grantDomains_built hg hc hc.paths hbuilt h

/-- The grants of all writers, in the netlist they are built in. -/
theorem grantWriters_built {candidates : List (Candidate g owner)} (hg : g.Models ν)
    (hbound : ∀ c ∈ candidates, c.Bound ν) {writers : List (List Grant)}
    (hbuilt : Built g ν built μ)
    (h : grantWriters g candidates built = some (built', writers)) :
    ∃ μ', Built g ν built' μ' ∧ Later built μ built' μ' ∧
      List.Forall₂ (fun c grants => List.Forall₂ (Granted ν c built' μ') c.granted grants)
        candidates writers := by
  induction candidates generalizing built μ writers with
  | nil =>
    obtain ⟨rfl, rfl⟩ := Prod.mk.inj (Option.some.inj h)
    exact ⟨μ, hbuilt, Later.refl _ _, List.Forall₂.nil⟩
  | cons c rest ih =>
    rw [grantWriters] at h
    split at h
    · cases h
    · next built₁ grants hgrants =>
      split at h
      · cases h
      · next built₂ others hothers =>
        obtain ⟨rfl, rfl⟩ := Prod.mk.inj (Option.some.inj h)
        obtain ⟨μ₁, hbuilt₁, hlater₁, hgranted⟩ :=
          grantCandidate_built hg (hbound c List.mem_cons_self) hbuilt hgrants
        obtain ⟨μ₂, hbuilt₂, hlater₂, hrest⟩ := ih
          (List.forall_mem_cons.mp hbound).2 hbuilt₁ hothers
        refine ⟨μ₂, hbuilt₂, hlater₁.trans hlater₂, List.Forall₂.cons ?_ hrest⟩
        exact hgranted.imp fun d grant hd => hd.later hlater₂

/-! ## Separation -/

theorem adapter_faithful {β : Type} (h : built.Models μ)
    (debit : Nat → β → Bool × β) : Faithful (built.adapter debit) μ := by
  refine ⟨?_, ?_⟩
  · rintro f ⟨⟩ node depth b m b' hcall
    dsimp only at hcall
    split at hcall
    · cases hcall
    · split at hcall
      · cases hcall
        rfl
      · cases hcall
  · rintro f ⟨⟩ node b view b' hcall
    dsimp only at hcall
    split at hcall
    · cases hcall
    · split at hcall
      · exact h node view (Prod.mk.inj hcall).1
      · cases hcall

/-- Two grants that cannot write one leaf together. -/
def Separate (μ : Node → Word) (left right : Grant) : Prop :=
  (compareSelectors false left.selectors right.selectors).1 = true ∨
  ¬ (μ left.path = [.one] ∧ μ right.path = [.one]) ∨
  ∃ a b, left.index = some a ∧ right.index = some b ∧
    (¬ Word.Differ (μ a) (μ b) → ¬ (μ left.path = [.one] ∧ μ right.path = [.one]))

section Loops

variable {β : Type} {A : Adapter β}

theorem separated_attempts (hA : Faithful A μ) (left right : Grant) :
    Attempts (Sound μ none) (separated A left right)
      fun ok => ok = true → Separate μ left right := by
  have hdisjoint : Attempts (Sound μ none) (disjoint A left.path right.path)
      fun ok => ok = true → Separate μ left right := by
    refine (disjoint_attempts hA left.path right.path).mono ?_
    intro ok hok htrue
    exact Or.inr (Or.inl (hok htrue fun p hp => nomatch hp))
  unfold separated
  split
  · next hfields =>
    apply Attempts.pure
    intro _
    exact Or.inl (by rw [hfields])
  · split
    · next a b ha hb =>
      apply Attempts.ite
      · intro _
        refine (disjointAtAddress_attempts hA left.path right.path a b).mono ?_
        intro ok hok htrue
        exact Or.inr (Or.inr ⟨a, b, ha, hb, hok htrue⟩)
      · intro _
        exact hdisjoint
    · exact hdisjoint

theorem forAll_attempts {α : Type} {I : Prover β → Prop} {test : α → FailureOr β Bool}
    {P : α → Prop} (h : ∀ a, Attempts I (test a) fun ok => ok = true → P a) (items : List α) :
    Attempts I (forAll test items) fun ok => ok = true → ∀ a ∈ items, P a := by
  induction items with
  | nil => exact Attempts.pure fun _ a ha => nomatch ha
  | cons item rest ih =>
    apply Attempts.bind (h item)
    intro ok hok
    apply Attempts.ite
    · intro htrue
      exact ih.mono fun _ hfound hall => List.forall_mem_cons.mpr ⟨hok htrue, hfound hall⟩
    · intro _
      exact Attempts.pure fun hfalse => nomatch hfalse

theorem separatedWriters_attempts (hA : Faithful A μ) (lefts rights : List Grant) :
    Attempts (Sound μ none) (separatedWriters A lefts rights)
      fun ok => ok = true → ∀ left ∈ lefts, ∀ right ∈ rights, Separate μ left right := by
  apply forAll_attempts
  intro left
  apply forAll_attempts
  intro right
  exact separated_attempts hA left right

/-- All grants of different writers are separate. -/
theorem separatedAll_attempts (hA : Faithful A μ) (before writers : List (List Grant)) :
    Attempts (Sound μ none) (separatedAll A before writers) fun ok => ok = true →
      (∀ writer ∈ writers, ∀ earlier ∈ before, ∀ left ∈ writer, ∀ right ∈ earlier,
        Separate μ left right) ∧
      writers.Pairwise fun earlier writer => ∀ left ∈ writer, ∀ right ∈ earlier,
        Separate μ left right := by
  induction writers generalizing before with
  | nil =>
    apply Attempts.pure
    intro _
    exact ⟨fun writer hwriter => (nomatch hwriter), List.Pairwise.nil⟩
  | cons writer rest ih =>
    apply Attempts.bind (forAll_attempts (separatedWriters_attempts hA writer) before)
    intro ok hok
    apply Attempts.ite
    · intro htrue
      refine (ih (before ++ [writer])).mono ?_
      intro found hfound hall
      obtain ⟨hbefore, hpairwise⟩ := hfound hall
      refine ⟨List.forall_mem_cons.mpr ⟨hok htrue, ?_⟩, List.pairwise_cons.mpr ⟨?_, hpairwise⟩⟩
      · intro other hother earlier hearlier
        exact hbefore other hother earlier (List.mem_append_left _ hearlier)
      · intro other hother
        exact hbefore other hother writer
          (List.mem_append_right _ (List.mem_singleton.mpr rfl))
    · intro _
      exact Attempts.pure fun hfalse => nomatch hfalse

end Loops

/-! ## Domains that cover one leaf -/

theorem covered_here {m : Mask} (h : Leaf.here.covered p m = true) : p = [] ∧ m = .bit .one := by
  cases p with
  | cons selector rest => cases selector <;> cases h
  | nil =>
    cases m with
    | bit b => exact ⟨rfl, congrArg Mask.bit (of_decide_eq_true h)⟩
    | table bits => cases h

theorem covered_field {arity : Nat} {name : Fin arity → String} {distinct : Function.Injective name}
    {member : Fin arity → Ty} {i : Fin arity} {rest : Leaf (member i)} {m : Mask}
    (h : (Leaf.field i rest : Leaf (.struct arity name distinct member)).covered p m = true) :
    ∃ q, (p = [] ∧ q = [] ∨ p = .field (name i) :: q) ∧ rest.covered q m = true := by
  cases p with
  | nil => exact ⟨[], .inl ⟨rfl, rfl⟩, h⟩
  | cons selector p =>
    cases selector with
    | index => cases h
    | field f =>
      obtain ⟨hf, hrest⟩ := Bool.and_eq_true_iff.mp h
      exact ⟨p, .inr (by rw [of_decide_eq_true hf]), hrest⟩

theorem covered_element {size : Nat} {element : Ty} {i : Fin size} {rest : Leaf element} {m : Mask}
    (h : (Leaf.element i rest : Leaf (.table size element)).covered p m = true) :
    ∃ q, (p = [] ∧ q = [] ∨ p = .index :: q) ∧ rest.covered q (m.at i) = true := by
  cases p with
  | nil => exact ⟨[], .inl ⟨rfl, rfl⟩, h⟩
  | cons selector p =>
    cases selector with
    | field f => cases h
    | index => exact ⟨p, .inr rfl, h⟩

/-- Two domains that cover one leaf do not part at a field. -/
theorem covered_compare (l : Leaf ty) {q : List Selector} {m m' : Mask} (b : Bool)
    (hp : l.covered p m = true) (hq : l.covered q m' = true) :
    (compareSelectors b p q).1 = false := by
  induction l generalizing p q m m' b with
  | here =>
    rw [(covered_here hp).1]
    rfl
  | field i rest ih =>
    obtain ⟨p, ⟨rfl, rfl⟩ | rfl, hp'⟩ := covered_field hp
    · rfl
    obtain ⟨q, ⟨rfl, rfl⟩ | rfl, hq'⟩ := covered_field hq
    · rfl
    rw [compareSelectors, if_neg (not_not.mpr rfl)]
    exact ih b hp' hq'
  | element i rest ih =>
    obtain ⟨p, ⟨rfl, rfl⟩ | rfl, hp'⟩ := covered_element hp
    · rfl
    obtain ⟨q, ⟨rfl, rfl⟩ | rfl, hq'⟩ := covered_element hq
    · rfl
    exact ih true hp' hq'

/-- The outermost table around a leaf: its size, and the ordinal of the element. -/
def Leaf.outermost : {ty : Ty} → Leaf ty → Option (Nat × Nat)
  | _, .here => none
  | _, .field _ rest => rest.outermost
  | .table size _, .element i _ => some (size, i)

theorem covered_bit {l : Leaf ty} {b : Logic}
    (h : l.covered p (.bit b) = true) : b = .one := by
  induction l generalizing p with
  | here => exact Mask.bit.inj (covered_here h).2
  | field i rest ih =>
    obtain ⟨q, -, hq⟩ := covered_field h
    exact ih hq
  | element i rest ih =>
    obtain ⟨q, -, hq⟩ := covered_element h
    exact ih hq

/-- An indexed domain that covers a leaf has mask one at the element of the outermost table. -/
theorem covered_table {l : Leaf ty} {bits : Nat → Logic} {size : Nat}
    (hparse : ty.parse p = some (some size)) (h : l.covered p (.table bits) = true) :
    ∃ k, l.outermost = some (size, k) ∧ bits k = .one := by
  induction l generalizing p with
  | here => cases (covered_here h).2
  | field i rest ih =>
    obtain ⟨q, ⟨rfl, -⟩ | rfl, hq⟩ := covered_field h
    · rw [parse_nil] at hparse
      cases hparse
    · rw [parse_field] at hparse
      exact ih hparse hq
  | @element size' element i rest ih =>
    obtain ⟨q, ⟨rfl, -⟩ | rfl, hq⟩ := covered_element h
    · rw [parse_nil] at hparse
      cases hparse
    · rw [Ty.parse] at hparse
      split at hparse
      · obtain rfl : size' = size := Option.some.inj (Option.some.inj hparse)
        exact ⟨i, rfl, covered_bit hq⟩
      · cases hparse

/-- An index that matches an ordinal has its value. -/
theorem addressMatch_eq_one {size ordinal : Nat} {index : Word}
    (h : addressMatch size ordinal index = .one) :
    ∃ n, Word.known? (Word.ofNat (max 1 (Nat.clog 2 size)) ordinal) = some n ∧
      Word.known? index = some n := by
  have hlen : (Word.zext (max (max 1 (Nat.clog 2 size)) index.length)
      (Word.ofNat (max 1 (Nat.clog 2 size)) ordinal)).length =
        (Word.zext (max (max 1 (Nat.clog 2 size)) index.length) index).length := by
    rw [Word.length_zext (by rw [Word.length_ofNat]; exact Nat.le_max_left _ _),
      Word.length_zext (Nat.le_max_right _ _)]
  obtain ⟨n, hn, hn'⟩ := Word.known_of_eq_one hlen h
  rw [Word.known?_zext] at hn hn'
  exact ⟨n, hn, hn'⟩

/-- A domain has the mask of its path, or that of the elements of a table. -/
theorem Domain.mask_cases (d : Domain owner) (ν : Node → Word) :
    (owner.parse d.selectors = some none ∧ d.index = none ∧ d.mask ν = .bit (ν d.path).bit) ∨
    ∃ size index, owner.parse d.selectors = some (some size) ∧ d.index = some index ∧
      d.mask ν = .table fun ordinal =>
        (ν d.path).bit.and (addressMatch size ordinal (ν index)) := by
  obtain ⟨selectors, path, table, index, parsed, indexed⟩ := d
  cases table with
  | none =>
    cases index with
    | none => exact .inl ⟨parsed, rfl, rfl⟩
    | some index => cases indexed
  | some size =>
    cases index with
    | none => cases indexed
    | some index => exact .inr ⟨size, index, parsed, rfl, rfl⟩

/-- What an indexed domain that covers a leaf says about its address. -/
theorem Domain.covered_index {index : Node}
    (hindex : d.index = some index) (h : l.covered d.selectors (d.mask ν) = true) :
    ∃ size k, l.outermost = some (size, k) ∧
      ∃ n, Word.known? (Word.ofNat (max 1 (Nat.clog 2 size)) k) = some n ∧
        Word.known? (ν index) = some n := by
  rcases d.mask_cases ν with ⟨-, hnone, -⟩ | ⟨size, index', hparse, hindex', hmask⟩
  · cases hnone.symm.trans hindex
  · obtain rfl := Option.some.inj (hindex.symm.trans hindex')
    rw [hmask] at h
    obtain ⟨k, houter, hone⟩ := covered_table hparse h
    exact ⟨size, k, houter, addressMatch_eq_one (Logic.and_eq_one.mp hone).2⟩

/-- A domain that covers a leaf has its path taken. -/
theorem Domain.covered_path (hlen : (ν d.path).length = 1)
    (h : l.covered d.selectors (d.mask ν) = true) : ν d.path = [.one] := by
  apply bit_eq_one hlen
  rcases d.mask_cases ν with ⟨-, -, hmask⟩ | ⟨size, index, hparse, -, hmask⟩
  · rw [hmask] at h
    exact covered_bit h
  · rw [hmask] at h
    obtain ⟨k, -, hone⟩ := covered_table hparse h
    exact (Logic.and_eq_one.mp hone).1

/-! ## Exclusive writers -/

/-- An active candidate has a granted domain that covers the leaf. -/
theorem Candidate.active_granted (hg : g.Models ν) (hc : c.Bound ν)
    (h : c.active ν l = true) :
    (ν c.enable).bit = .one ∧ ∃ d ∈ c.granted, ν d.path = [.one] ∧
      l.covered d.selectors (d.mask ν) = true := by
  obtain ⟨henable, hcover⟩ := Bool.and_eq_true_iff.mp h
  have henable := of_decide_eq_true henable
  refine ⟨henable, ?_⟩
  unfold Candidate.granted
  split at hcover
  · next hempty =>
    rw [if_pos hempty]
    have hintent := (Candidate.enabled hg hc henable).2
    refine ⟨_, List.mem_singleton.mpr rfl, hintent, ?_⟩
    have hmask : (implicitDomain owner c.intent).mask ν = .bit .one := by
      show Mask.bit (ν c.intent).bit = .bit .one
      rw [hintent]
      rfl
    rw [hmask]
    exact covered_whole l .one
  · next hempty =>
    rw [if_neg hempty]
    obtain ⟨use, huse, hcovered⟩ := List.any_eq_true.mp hcover
    obtain ⟨d, hd, rfl⟩ := List.mem_map.mp huse
    exact ⟨d, hd, Domain.covered_path (hc.paths d hd).2 hcovered, hcovered⟩

theorem Candidate.granted_index (hc : c.Bound ν)
    (hd : d ∈ c.granted) {i : Node} (hi : d.index = some i) : i < g.size := by
  unfold Candidate.granted at hd
  split at hd
  · rw [List.mem_singleton.mp hd] at hi
    cases hi
  · exact hc.indices d hd i hi

theorem forall₂_mem_left {γ : Type} {R : α → γ → Prop} {as : List α} {cs : List γ}
    (h : List.Forall₂ R as cs) {a : α} (ha : a ∈ as) : ∃ c ∈ cs, R a c := by
  induction h with
  | nil => cases ha
  | cons hac _ ih =>
    rcases List.mem_cons.mp ha with rfl | ha
    · exact ⟨_, List.mem_cons_self, hac⟩
    · obtain ⟨c, hc, hR⟩ := ih ha
      exact ⟨c, List.mem_cons_of_mem _ hc, hR⟩

theorem pairwise_of_forall₂ {γ : Type} {R : α → γ → Prop} {P : α → α → Prop}
    {Q : γ → γ → Prop} {as : List α} {cs : List γ} (h : List.Forall₂ R as cs)
    (hQ : cs.Pairwise Q) (hPQ : ∀ a ∈ as, ∀ b ∈ as, ∀ c d, R a c → R b d → Q c d → P a b) :
    as.Pairwise P := by
  induction h with
  | nil => exact List.Pairwise.nil
  | @cons a c as cs hac hrest ih =>
    obtain ⟨hc, hcs⟩ := List.pairwise_cons.mp hQ
    refine List.pairwise_cons.mpr ⟨?_, ih hcs ?_⟩
    · intro b hb
      obtain ⟨d, hd, hbd⟩ := forall₂_mem_left hrest hb
      exact hPQ a List.mem_cons_self b (List.mem_cons_of_mem a hb) c d hac hbd (hc d hd)
    · intro a' ha' b' hb'
      exact hPQ a' (List.mem_cons_of_mem a ha') b' (List.mem_cons_of_mem a hb')

/-- Writers with separate grants are not active at one leaf. -/
theorem separate_exclusive {c' : Candidate g owner} (hg : g.Models ν) (hc : c.Bound ν)
    (hc' : c'.Bound ν) (hbuilt : Built g ν built μ) {grants' : List Grant}
    (hgrants : List.Forall₂ (Granted ν c built μ) c.granted grants)
    (hgrants' : List.Forall₂ (Granted ν c' built μ) c'.granted grants')
    (hseparate : ∀ left ∈ grants', ∀ right ∈ grants, Separate μ left right) (l : Leaf owner) :
    ¬ (c.active ν l = true ∧ c'.active ν l = true) := by
  rintro ⟨hactive, hactive'⟩
  obtain ⟨henable, d, hd, hpath, hcovered⟩ := Candidate.active_granted hg hc hactive
  obtain ⟨henable', d', hd', hpath', hcovered'⟩ := Candidate.active_granted hg hc' hactive'
  obtain ⟨grant, hmem, hgrant⟩ := forall₂_mem_left hgrants hd
  obtain ⟨grant', hmem', hgrant'⟩ := forall₂_mem_left hgrants' hd'
  have hone := hgrant.one henable hpath
  have hone' := hgrant'.one henable' hpath'
  rcases hseparate grant' hmem' grant hmem with hfields | hdisjoint | ⟨a, b, ha, hb, haddress⟩
  · rw [hgrant.selectors, hgrant'.selectors, covered_compare l false hcovered' hcovered] at hfields
    cases hfields
  · exact hdisjoint ⟨hone', hone⟩
  · refine haddress ?_ ⟨hone', hone⟩
    rw [hgrant'.index] at ha
    rw [hgrant.index] at hb
    -- both addresses are that of the element around the leaf
    obtain ⟨size, k, houter, n, hn, hknown⟩ := Domain.covered_index hb hcovered
    obtain ⟨size', k', houter', n', hn', hknown'⟩ := Domain.covered_index ha hcovered'
    obtain ⟨rfl, rfl⟩ := Prod.mk.inj (Option.some.inj (houter.symm.trans houter'))
    obtain rfl : n = n' := Option.some.inj (hn.symm.trans hn')
    rw [hbuilt.agrees a (Candidate.granted_index hc' hd' ha),
      hbuilt.agrees b (Candidate.granted_index hc hd hb)]
    exact Word.not_differ_of_known hknown' hknown

/-- No two accepted writers are active at one leaf. -/
theorem accepted_exclusive {β : Type} {debit : Nat → β → Bool × β} {budget : β}
    {candidates : List (Candidate g owner)} (hcircuit : Circuit ν candidates)
    (haccept : proveWriteDomainsDisjoint debit budget candidates = some true) (l : Leaf owner) :
    Exclusive (fun c => Candidate.active ν c l) candidates := by
  unfold proveWriteDomainsDisjoint at haccept
  split at haccept
  · cases haccept
  · next built writers hwriters =>
    have hstart : Built g ν g ν :=
      ⟨hcircuit.models, hcircuit.closed, Nat.le_refl _, fun _ _ => rfl⟩
    obtain ⟨μ, hbuilt, -, hgranted⟩ :=
      grantWriters_built hcircuit.models hcircuit.bound hstart hwriters
    have hfaithful := adapter_faithful hbuilt.models debit
    obtain ⟨-, hpairwise⟩ := (separatedAll_attempts hfaithful [] writers _
      (start_sound budget)).2 true haccept rfl
    refine pairwise_of_forall₂ hgranted hpairwise ?_
    intro c hc c' hc' grants grants' hgrants hgrants' hseparate
    exact separate_exclusive hcircuit.models (hcircuit.bound c hc) (hcircuit.bound c' hc') hbuilt
      hgrants hgrants' hseparate l

/-! ## Commits -/

/-- The enable and the masks of the candidate are known. -/
structure Candidate.Known (ν : Node → Word) (c : Candidate g owner) : Prop where
  enable : ((ν c.enable).bit).Known
  masks : ∀ d ∈ c.domains, (d.mask ν).Known

/-- The commit of one writer: the leaves where it is active take its value. -/
theorem commit_read (hknown : c.Known ν) {data previous v : Value owner}
    (h : Candidate.commit ν previous (c, data) = some v) (l : Leaf owner) :
    l.read v = if c.active ν l then l.read data else l.read previous := by
  unfold Candidate.commit materializeDomainCommit at h
  have henable := ofBool_decide_one hknown.enable
  rw [henable] at h
  have hempty : (c.uses ν).isEmpty = c.domains.isEmpty := List.isEmpty_map
  unfold Candidate.active
  cases hdomains : c.domains.isEmpty with
  | true =>
    rw [hempty, hdomains, if_pos rfl] at h
    have hmasks : ∀ use ∈ [Use.mk [] (.bit (.ofBool true))], use.mask.Known :=
      List.forall_mem_singleton.mpr (Or.inr rfl)
    rw [compose_read hmasks h l, List.any_cons, covered_whole, if_pos rfl]
    rfl
  | false =>
    rw [hempty, hdomains, if_neg Bool.false_ne_true] at h
    have hmasks : ∀ use ∈ c.uses ν, use.mask.Known := by
      intro use huse
      obtain ⟨d, hd, rfl⟩ := List.mem_map.mp huse
      exact hknown.masks d hd
    rw [compose_read hmasks h l, if_neg Bool.false_ne_true]

/-- Run lemma: the commits of a list of writers, leaf by leaf. -/
theorem commitAll_read {writers : List (Candidate g owner × Value owner)}
    (hknown : ∀ w ∈ writers, w.1.Known ν) {old result : Value owner}
    (h : commitAll ν old writers = some result) (l : Leaf owner) :
    l.read result = writers.foldl
      (writeIf (fun w => w.1.active ν l) (fun w => l.read w.2)) (l.read old) := by
  induction writers generalizing old with
  | nil =>
    obtain rfl := Option.some.inj h
    rfl
  | cons w rest ih =>
    obtain ⟨next, hnext, hrest⟩ := Option.bind_eq_some_iff.mp h
    rw [ih (List.forall_mem_cons.mp hknown).2 hrest, List.foldl_cons]
    rw [commit_read (hknown w List.mem_cons_self) hnext l]
    rfl

/-- The commits of a list succeed when each of them does, from whatever value. -/
theorem commitAll_isSome {writers : List (Candidate g owner × Value owner)} {old : Value owner} :
    (commitAll ν old writers).isSome = true ↔
      ∀ w ∈ writers, (Candidate.commit ν old w).isSome = true := by
  induction writers generalizing old with
  | nil => exact ⟨fun _ w hw => (nomatch hw), fun _ => rfl⟩
  | cons w rest ih =>
    have hcons : commitAll ν old (w :: rest) =
        (Candidate.commit ν old w).bind fun v => commitAll ν v rest := rfl
    rw [hcons, Option.isSome_bind]
    cases hfirst : Candidate.commit ν old w with
    | none =>
      refine ⟨fun h => (nomatch h), fun h => ?_⟩
      have hw := h w List.mem_cons_self
      rw [hfirst] at hw
      cases hw
    | some v =>
      rw [Option.any_some, ih]
      refine ⟨fun h w' hw' => ?_, fun h w' hw' => ?_⟩
      · rcases List.mem_cons.mp hw' with rfl | hw'
        · rw [hfirst]
          rfl
        · exact compose_isSome_congr (h w' hw')
      · exact compose_isSome_congr (h w' (List.mem_cons_of_mem w hw'))

/-- The commit of a candidate whose owner fits the recursion succeeds. -/
theorem commit_isSome (hfits : owner.Fits 0) (old : Value owner)
    (w : Candidate g owner × Value owner) : (Candidate.commit ν old w).isSome = true := by
  apply compose_isSome hfits
  intro use huse
  split at huse
  · rw [List.mem_singleton.mp huse]
    exact parse_nil owner
  · obtain ⟨d, hd, rfl⟩ := List.mem_map.mp huse
    rcases d.mask_cases ν with ⟨hparse, -, hmask⟩ | ⟨size, index, hparse, -, hmask⟩
    · rw [hmask]
      exact hparse
    · rw [hmask]
      exact ⟨size, hparse⟩

/-- Writers of one owner that are accepted commit in any order. In every valuation of their circuit
at most one of them is enabled with mask one on a domain that covers a leaf; when the enables and
masks are known, the committed value has the value of that writer in the leaf, or the old value when
there is none; and the commits in any other order have the same result. The commits succeed for
every owner that fits the recursion of `materializeDomainCommit`. -/
theorem unordered_commit {β : Type} (debit : Nat → β → Bool × β) (budget : β) {g : Netlist}
    {owner : Ty} (writers : List (Candidate g owner × Value owner)) (ν : Node → Word)
    (hcircuit : Circuit ν (writers.map Prod.fst))
    (haccept : proveWriteDomainsDisjoint debit budget (writers.map Prod.fst) = some true)
    (hknown : ∀ w ∈ writers, w.1.Known ν) (old : Value owner) :
    (∀ l : Leaf owner, writers.Pairwise fun w w' =>
      ¬ (w.1.active ν l = true ∧ w'.1.active ν l = true)) ∧
    (∀ result, commitAll ν old writers = some result → ∀ l : Leaf owner,
      (∀ w ∈ writers, w.1.active ν l = true → l.read result = l.read w.2) ∧
      ((∀ w ∈ writers, w.1.active ν l = false) → l.read result = l.read old)) ∧
    (∀ order : List (Candidate g owner × Value owner), order.Perm writers →
      commitAll ν old order = commitAll ν old writers) ∧
    (owner.Fits 0 → (commitAll ν old writers).isSome = true) := by
  have hexclusive : ∀ l : Leaf owner,
      Exclusive (fun w : Candidate g owner × Value owner => w.1.active ν l) writers := by
    intro l
    exact List.pairwise_map.mp (accepted_exclusive hcircuit haccept l)
  refine ⟨hexclusive, ?_, ?_, ?_⟩
  · intro result hresult l
    rw [commitAll_read hknown hresult l]
    refine ⟨?_, ?_⟩
    · intro w hw hactive
      exact foldl_writeIf_of_active (hexclusive l) hw hactive _
    · intro hinactive
      exact foldl_writeIf_of_inactive hinactive _
  · intro order hperm
    have hsome : (commitAll ν old order).isSome = (commitAll ν old writers).isSome := by
      rw [Bool.eq_iff_iff, commitAll_isSome, commitAll_isSome]
      exact forall_congr' fun w => by rw [hperm.mem_iff]
    cases horder : commitAll ν old order with
    | none =>
      rw [horder] at hsome
      exact (Option.isNone_iff_eq_none.mp (Option.isSome_eq_false_iff.mp hsome.symm)).symm
    | some v =>
      rw [horder] at hsome
      obtain ⟨v', hv'⟩ := Option.isSome_iff_exists.mp hsome.symm
      rw [hv']
      congr 1
      apply Value.ext
      intro l
      have hknown' : ∀ w ∈ order, w.1.Known ν := fun w hw => hknown w (hperm.mem_iff.mp hw)
      rw [commitAll_read hknown' horder l, commitAll_read hknown hv' l]
      exact (hexclusive l).foldl_perm hperm _
  · intro hfits
    exact commitAll_isSome.mpr fun w _ => commit_isSome hfits old w

/-! ## An instance -/

/-- A path 0, a fire 1, their conjunction 2, and the addresses 3 and 4. -/
def pairNetlist : Netlist where
  views := [⟨.raw, [], some 1, none⟩, ⟨.raw, [], some 1, none⟩, ⟨.and, [1, 0], some 1, none⟩,
    ⟨.raw, [], some 1, some ⟨0, 1⟩⟩, ⟨.raw, [], some 1, some ⟨1, 1⟩⟩]

/-- A writer of the element at an address of a table of two. -/
def pairWriter (address : Node) : Candidate pairNetlist (.table 2 .leaf) where
  enable := 2
  fire := 1
  intent := 0
  wired := ⟨_, rfl, rfl, rfl⟩
  controls := []
  domains := [⟨[.index], 0, some 2, some address, rfl, rfl⟩]

def pairWriters : List (Candidate pairNetlist (.table 2 .leaf) × Value (.table 2 .leaf)) :=
  [(pairWriter 3, .table fun _ => .leaf [.one]), (pairWriter 4, .table fun _ => .leaf [.zero])]

def pairWords (node : Node) : Word := if node = 3 then [.zero] else [.one]

theorem pairWords_models : pairNetlist.Models pairWords := by
  intro node view hview
  match node, hview with
  | 0, rfl => exact ⟨by rintro w ⟨⟩; rfl, nofun, trivial⟩
  | 1, rfl => exact ⟨by rintro w ⟨⟩; rfl, nofun, trivial⟩
  | 2, rfl => exact ⟨by rintro w ⟨⟩; rfl, nofun, rfl, rfl, rfl⟩
  | 3, rfl => exact ⟨by rintro w ⟨⟩; rfl, by rintro c ⟨⟩; exact ⟨0, rfl, rfl, rfl⟩, trivial⟩
  | 4, rfl => exact ⟨by rintro w ⟨⟩; rfl, by rintro c ⟨⟩; exact ⟨1, rfl, rfl, rfl⟩, trivial⟩

theorem pairWriter_bound {address : Node} (h : address < pairNetlist.size) :
    (pairWriter address).Bound pairWords := by
  refine ⟨⟨Nat.zero_lt_succ 4, rfl⟩, List.forall_mem_singleton.mpr ⟨Nat.zero_lt_succ 4, rfl⟩,
    List.forall_mem_singleton.mpr ?_, nofun, rfl⟩
  rintro i ⟨⟩
  exact h

theorem pairWriters_circuit : Circuit pairWords (pairWriters.map Prod.fst) := by
  exact ⟨pairWords_models, by decide, List.forall_mem_cons.mpr
    ⟨pairWriter_bound (by decide), List.forall_mem_singleton.mpr (pairWriter_bound (by decide))⟩⟩

theorem pairWriter_known {address : Node} {l : Logic} (hl : l.Known)
    (h : pairWords address = [l]) : (pairWriter address).Known pairWords := by
  refine ⟨Or.inr rfl, ?_⟩
  intro d hd
  rw [List.mem_singleton.mp hd]
  intro ordinal
  change Logic.Known (Logic.one.and (addressMatch 2 ordinal (pairWords address)))
  -- one bit of the ordinal is compared with one known bit
  have hbit : addressMatch 2 ordinal [l] = (Logic.xnor (.ofBool (ordinal.testBit 0)) l).and .one :=
    rfl
  rw [h, hbit]
  cases ordinal.testBit 0 <;> rcases hl with rfl | rfl <;> decide

/-- The two writers leave one in element 0 and zero in element 1. -/
theorem unordered_commit_sample : ∃ result,
    commitAll pairWords (.table fun _ => .leaf [.x]) pairWriters = some result ∧
    (Leaf.element 0 .here).read result = [.one] ∧
    (Leaf.element 1 .here).read result = [.zero] := by
  have haccept : proveWriteDomainsDisjoint (fun _ budget => (true, budget)) ()
      (pairWriters.map Prod.fst) = some true := by decide +kernel
  have hknown : ∀ w ∈ pairWriters, w.1.Known pairWords :=
    List.forall_mem_cons.mpr ⟨pairWriter_known (Or.inl rfl) rfl,
      List.forall_mem_singleton.mpr (pairWriter_known (Or.inr rfl) rfl)⟩
  obtain ⟨-, hread, -, hsome⟩ := unordered_commit _ _ pairWriters pairWords pairWriters_circuit
    haccept hknown (.table fun _ => .leaf [.x])
  obtain ⟨result, hresult⟩ := Option.isSome_iff_exists.mp
    (hsome ⟨Nat.zero_le _, by decide, Nat.le_of_ble_eq_true rfl⟩)
  refine ⟨result, hresult, ?_, ?_⟩
  · exact (hread result hresult (.element 0 .here)).1 _ List.mem_cons_self (by decide)
  · exact (hread result hresult (.element 1 .here)).1 _
      (List.mem_cons_of_mem _ List.mem_cons_self) (by decide)

end

end PyCircuit.Commit
