import PyCircuit.Commit.Owner
import PyCircuit.Grant.Soundness
import PyCircuit.Transaction.Lower
import Mathlib.Data.Nat.Log

/-!
# The disjointness of write domains

`proveWriteDomainsDisjoint` accepts the writers of one owner that cannot collide. Every domain of a
writer is granted under its path, together with the callable guards that are sure to have been
executed when the path is taken; a writer without domains is granted its raw intent. Two grants are
separate when their fields differ, or when the owner-enable proof finds their paths disjoint, at
their addresses if both are indexed.

The endpoints the proof can reach are a netlist of bound nodes; the conjunctions of paths with
guards are appended to it.
-/

set_option autoImplicit false

namespace PyCircuit.Commit

open PyCircuit.Lib PyCircuit.Grant
open PyCircuit.Transaction (ControlKind)

/-! ## Netlists -/

/-- The bound nodes, by identity. -/
structure Netlist where
  views : List NodeView

namespace Netlist

def size (g : Netlist) : Nat := g.views.length

def view (g : Netlist) (node : Node) : Option NodeView := g.views[node]?

/-- A synthetic conjunction. -/
def combine (g : Netlist) (left right : Node) : Netlist × Node :=
  (⟨g.views ++ [⟨.and, [left, right], some 1, none⟩]⟩, g.size)

/-- The callbacks of the owner-enable proof. -/
def adapter {β : Type} (g : Netlist) (debit : Nat → β → Bool × β) : Adapter β where
  canonicalize := some fun node _ budget =>
    if g.size ≤ node then (none, budget)
    else
      match debit 1 budget with
      | (true, budget) => (some node, budget)
      | (false, budget) => (none, budget)
  inspect := some fun node budget =>
    if g.size ≤ node then (none, budget)
    else
      match debit 1 budget with
      | (true, budget) => (g.view node, budget)
      | (false, budget) => (none, budget)
  debit := some debit

end Netlist

/-! ## Writers -/

/-- A control of the sampled admission of a rule, with the selections around it, innermost first. -/
structure SampledControl where
  kind : ControlKind
  raw : Node
  executionPath : List (Node × Bool)

/-- A write domain of an owner: its selectors, its raw path, and the index of an indexed domain. -/
structure Domain (owner : Ty) where
  selectors : List Selector
  path : Node
  table : Option Nat
  index : Option Node
  parsed : owner.parse selectors = some table
  indexed : table.isSome = index.isSome

/-- A candidate of an owner: its enable is the conjunction of the fire of its rule and its raw
intent. -/
structure Candidate (g : Netlist) (owner : Ty) where
  enable : Node
  fire : Node
  intent : Node
  wired : ∃ view, g.view enable = some view ∧ view.kind = .and ∧ view.operands = [fire, intent]
  controls : List SampledControl
  domains : List (Domain owner)

/-- The whole owner, under the raw intent. -/
def implicitDomain (owner : Ty) (intent : Node) : Domain owner where
  selectors := []
  path := intent
  table := none
  index := none
  parsed := parse_nil owner
  indexed := rfl

/-! ## Grants -/

structure Grant where
  selectors : List Selector
  index : Option Node
  path : Node

section Grants

variable (g : Netlist)

/-- `contains`: the condition is one of the conjuncts of a path, negated for polarity false. The
argument counts down the levels that may be visited. -/
def contains (condition : Node) (polarity : Bool) : Nat → Node → Option Bool
  | 0, _ => none
  | fuel + 1, node =>
    if polarity && node = condition then some true
    else
      match g.view node with
      | none => some false
      | some view =>
        match view.kind, view.operands with
        | .not, [raw] => if polarity then some false else some (raw = condition)
        | .and, [lhs, rhs] =>
          match contains condition polarity fuel lhs with
          | some false => contains condition polarity fuel rhs
          | found => found
        | _, _ => some false

/-- A guard is applicable to a path that implies all selections around the guard. -/
def applicable (path : Node) : Nat → List (Node × Bool) → Option Bool
  | _, [] => some true
  | 0, _ :: _ => none
  | fuel + 1, (condition, whenTrue) :: outer =>
    match contains g condition whenTrue 129 path with
    | some true => applicable path fuel outer
    | found => found

/-- The path of a grant: the path of the domain and the applicable guards. -/
def joinGuards (domainPath : Node) :
    List SampledControl → Netlist → Node → Option (Netlist × Node)
  | [], built, path => some (built, path)
  | control :: rest, built, path =>
    if control.kind ≠ .guard then joinGuards domainPath rest built path
    else
      match applicable g domainPath 129 control.executionPath with
      | none => none
      | some false => joinGuards domainPath rest built path
      | some true =>
        joinGuards domainPath rest (built.combine path control.raw).1
          (built.combine path control.raw).2

def grantDomains {owner : Ty} (controls : List SampledControl) :
    List (Domain owner) → Netlist → Option (Netlist × List Grant)
  | [], built => some (built, [])
  | domain :: rest, built =>
    match joinGuards g domain.path controls built domain.path with
    | none => none
    | some (built, path) =>
      match grantDomains controls rest built with
      | none => none
      | some (built, grants) => some (built, ⟨domain.selectors, domain.index, path⟩ :: grants)

/-- The raw intent of a whole-owner grant, from the conjunction that enables the candidate. -/
def rawIntent (enable : Node) : Option Node :=
  match g.view enable with
  | none => none
  | some view =>
    match view.kind, view.operands with
    | .and, [_, intent] => some intent
    | _, _ => none

def grantCandidate {owner : Ty} (c : Candidate g owner) (built : Netlist) :
    Option (Netlist × List Grant) :=
  if c.domains.isEmpty then
    match rawIntent g c.enable with
    | none => none
    | some intent => grantDomains g c.controls [implicitDomain owner intent] built
  else grantDomains g c.controls c.domains built

def grantWriters {owner : Ty} : List (Candidate g owner) → Netlist →
    Option (Netlist × List (List Grant))
  | [], built => some (built, [])
  | c :: rest, built =>
    match grantCandidate g c built with
    | none => none
    | some (built, grants) =>
      match grantWriters rest built with
      | none => none
      | some (built, writers) => some (built, grants :: writers)

end Grants

/-! ## Separation -/

/-- How far two selector paths agree: whether they part at a field, and whether both have an
index. -/
def compareSelectors (indexed : Bool) : List Selector → List Selector → Bool × Bool
  | .field f :: ls, .field f' :: rs =>
    if f ≠ f' then (true, indexed) else compareSelectors indexed ls rs
  | .index :: ls, .index :: rs => compareSelectors true ls rs
  | _, _ => (false, indexed)

section Separation

variable {β : Type} (A : Adapter β)

def separated (left right : Grant) : FailureOr β Bool :=
  match compareSelectors false left.selectors right.selectors with
  | (true, _) => return true
  | (false, indexed) =>
    match left.index, right.index with
    | some a, some b =>
      if indexed then disjointAtAddress A left.path right.path a b
      else disjoint A left.path right.path
    | _, _ => disjoint A left.path right.path

/-- A loop that stops at the first item that fails the test. -/
def forAll {α : Type} (test : α → FailureOr β Bool) : List α → FailureOr β Bool
  | [] => return true
  | item :: rest => do
      if ← test item then forAll test rest else return false

/-- The grants of two writers are separate. -/
def separatedWriters (lefts rights : List Grant) : FailureOr β Bool :=
  forAll (fun left => forAll (separated A left) rights) lefts

/-- Every writer is separate from all writers before it. -/
def separatedAll (before : List (List Grant)) : List (List Grant) → FailureOr β Bool
  | [] => return true
  | writer :: rest => do
      if ← forAll (separatedWriters A writer) before then separatedAll (before ++ [writer]) rest
      else return false

end Separation

/-- `proveWriteDomainsDisjoint`: true when the writers are accepted, none when the proof fails. -/
def proveWriteDomainsDisjoint {β : Type} (debit : Nat → β → Bool × β) (budget : β) {g : Netlist}
    {owner : Ty} (candidates : List (Candidate g owner)) : Option Bool :=
  match grantWriters g candidates g with
  | none => none
  | some (built, writers) =>
    ((separatedAll (built.adapter debit) [] writers).run.run (Prover.start budget)).1

/-! ## Valuations -/

section Valuations

variable (ν : Node → Word)

/-- The path into the arms of the selections around a control. -/
def armPath : List (Node × Bool) → Logic
  | [] => .one
  | (condition, whenTrue) :: outer =>
    (armPath outer).and ((ν condition).bit.caseEq (.ofBool whenTrue))

def SampledControl.accepted (c : SampledControl) : Logic :=
  match c.kind with
  | .selection => ((ν c.raw).bit.caseEq .zero).or ((ν c.raw).bit.caseEq .one)
  | _ => (ν c.raw).bit.caseEq .one

/-- The last admission prefix of the controls of a rule. -/
def admission (controls : List SampledControl) : Logic :=
  controls.foldl
    (fun admitted c => admitted.and (Logic.select (armPath ν c.executionPath) (c.accepted ν) .one))
    .one

/-- The comparison of the ordinal of a table element with an index, both zero-extended. -/
def addressMatch (size ordinal : Nat) (index : Word) : Logic :=
  let ordinalWidth := max 1 (Nat.clog 2 size)
  let width := max ordinalWidth index.length
  Word.eq (Word.zext width (Word.ofNat ordinalWidth ordinal)) (Word.zext width index)

/-- The mask of a domain: its raw path, and in an indexed domain the match of the address. -/
def Domain.mask {owner : Ty} (d : Domain owner) : Mask :=
  match d.table, d.index with
  | some size, some index =>
    .table fun ordinal => (ν d.path).bit.and (addressMatch size ordinal (ν index))
  | _, _ => .bit (ν d.path).bit

variable {g : Netlist} {owner : Ty}

def Candidate.uses (c : Candidate g owner) : List Use :=
  c.domains.map fun d => ⟨d.selectors, d.mask ν⟩

/-- The commit of a candidate onto the value so far. -/
def Candidate.commit (previous : Value owner) (writer : Candidate g owner × Value owner) :
    Option (Value owner) :=
  materializeDomainCommit previous writer.2 (ν writer.1.enable).bit (writer.1.uses ν)

/-- The commits of all writers, one after the other. -/
def commitAll (old : Value owner) (writers : List (Candidate g owner × Value owner)) :
    Option (Value owner) :=
  writers.foldlM (Candidate.commit ν) old

/-- The candidate is enabled, and some domain of it covers the leaf with mask one. -/
def Candidate.active (c : Candidate g owner) (l : Leaf owner) : Bool :=
  (ν c.enable).bit = .one &&
    (if c.domains.isEmpty then true
      else (c.uses ν).any fun use => l.covered use.path use.mask)

end Valuations

end PyCircuit.Commit
