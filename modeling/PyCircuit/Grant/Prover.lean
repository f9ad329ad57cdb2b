import PyCircuit.Lib.Stateful
import PyCircuit.Lib.Word

/-!
# The owner-enable proof

`HardwareGrantProof` decides whether two one-bit enables can be known one together. From "this node
has this value" it derives the facts that follow (`required`), and two enables are disjoint when the
facts of both contradict each other. Under a collision the two given addresses are taken not to be
known to differ.

The proof object memoises the facts of a query under the collision they were derived with, keeps the
descriptions of the nodes, and accounts for its work with the caller. Running out of budget, a cycle
and an adapter that misbehaves are failures, and a failure is final: after it, no query succeeds.
-/

set_option autoImplicit false

namespace PyCircuit.Grant

open PyCircuit.Lib

/-! ## Nodes and the adapter -/

/-- Identities of bound endpoints, as 64-bit numbers. -/
abbrev Node : Type := Nat

/-- The two largest 64-bit identities are reserved, and nothing is above them. -/
def reserved (node : Node) : Bool := 18446744073709551614 ≤ node

/-- A fully known pattern. -/
structure Constant where
  value : Int
  width : Nat
  deriving DecidableEq, Repr

/-- What a node computes; a raw node is opaque. -/
inductive NodeKind where
  | raw
  | not
  | and
  | or
  | select
  | eq
  | ne
  deriving DecidableEq, Repr

/-- The description of a node, as far as the adapter knows it. -/
structure NodeView where
  kind : NodeKind
  operands : List Node
  width : Option Nat
  fullyKnown : Option Constant
  deriving DecidableEq, Repr

/-- The number of operands. -/
def NodeKind.arity : NodeKind → Nat
  | .raw => 0
  | .not => 1
  | .select => 3
  | _ => 2

/-- The callbacks of the caller, with the state of its accounting. -/
structure Adapter (β : Type) where
  canonicalize : Option (Node → Nat → β → Option Node × β)
  inspect : Option (Node → β → Option NodeView × β)
  debit : Option (Nat → β → Bool × β)

/-! ## The state of a proof -/

/-- Without a constant: the node is known and has the polarity. With a constant: the node is known
to be equal to it, or known to differ from it. -/
structure Fact where
  value : Node
  polarity : Bool
  constant : Option Int
  width : Nat
  deriving DecidableEq, Repr

/-- What is derived for a premise, or that the premise cannot hold. -/
inductive Result where
  | facts (facts : List Fact)
  | impossible
  | failure
  deriving DecidableEq, Repr

/-- A query with the collision it was made under. -/
structure QueryKey where
  collision : Option (Node × Node)
  value : Node
  polarity : Bool
  deriving DecidableEq, Repr

/-- The proof object; `reason` is empty before the first failure. -/
structure Prover (β : Type) where
  accounting : β
  reason : String
  collision : Option (Node × Node)
  cache : List (QueryKey × Result)
  visiting : List QueryKey
  views : List (Node × NodeView)

/-- No query was made yet. -/
def Prover.start {β : Type} (accounting : β) : Prover β := ⟨accounting, "", none, [], [], []⟩

/-- Programs of the proof. -/
abbrev ProofM (β α : Type) : Type := StateM (Prover β) α

/-- Programs that may return `failure()`. -/
abbrev FailureOr (β α : Type) : Type := OptionT (StateM (Prover β)) α

section

variable {α β : Type} (A : Adapter β)

/-- `charge`: no work is done after a failure, or beyond the budget. -/
def charge (amount : Nat) : ProofM β Bool := fun s =>
  if s.reason ≠ "" then (false, s)
  else
    match A.debit with
    | none => (false, { s with reason := "owner-enable proof work budget exhausted" })
    | some debit =>
      match debit amount s.accounting with
      | (true, accounting) => (true, { s with accounting })
      | (false, accounting) =>
        (false, { s with accounting, reason := "owner-enable proof work budget exhausted" })

/-- The first reason of a failure is kept. -/
def noteFailure (message : String) : ProofM β Unit :=
  modify fun s => if s.reason = "" then { s with reason := message } else s

/-- The first reason of a failure stays. -/
def fail (message : String) : ProofM β Result := do
  noteFailure message
  return .failure

/-- `if (!charge(amount)) return {Failure};` -/
def charged (amount : Nat) (next : ProofM β Result) : ProofM β Result := do
  if ← charge A amount then next else return .failure

/-- `if (!charge(amount)) return failure();` -/
def spend (amount : Nat) : FailureOr β Unit := do
  if ← charge A amount then return () else failure

/-- `fail(message); return failure();` -/
def reject (message : String) : FailureOr β α := do
  monadLift (noteFailure message : ProofM β Unit)
  failure

/-- `if (failed(result)) return fail(message);` -/
def orFail (message : String) (m : FailureOr β α) : FailureOr β α := OptionT.mk do
  match ← m.run with
  | some a => return some a
  | none => (reject message).run

/-- Two results are computed before either is tested for failure. -/
def both {γ : Type} (m : FailureOr β α) (n : FailureOr β γ) : FailureOr β (α × γ) := OptionT.mk do
  let first ← m.run
  let second ← n.run
  match first, second with
  | some a, some c => return some (a, c)
  | _, _ => return none

/-- A callback runs on the accounting of the caller. -/
def callback (f : β → Option α × β) : FailureOr β α := OptionT.mk fun s =>
  match f s.accounting with
  | (result, accounting) => (result, { s with accounting })

/-! ## Nodes -/

/-- The node that stands for this one in the graph of the caller. -/
def canonical (node : Node) (depth : Nat) : FailureOr β Node := do
  spend A 1
  match A.canonicalize with
  | none => reject "owner-enable proof recursion or adapter contract failed"
  | some canonicalize =>
    if 128 ≤ depth then
      reject "owner-enable proof recursion or adapter contract failed"
    else if reserved node then
      reject "owner-enable proof adapter uses a reserved node identity"
    else
      let canonical ← callback (canonicalize node depth)
      if reserved canonical then
        reject "owner-enable proof adapter returns a reserved node identity"
      else return canonical

/-- The checks on a new description. -/
def checkView (view : NodeView) : FailureOr β Unit :=
  if view.operands.length ≠ view.kind.arity then
    reject "owner-enable proof adapter has invalid node arity"
  else
    match view.fullyKnown with
    | none => return ()
    | some known =>
      if view.width = none ∨ view.width = some 0 ∨ view.width ≠ some known.width then
        reject "owner-enable proof adapter has invalid known pattern"
      else if known.value < 0 ∨ 2 ^ known.width ≤ known.value then
        reject "owner-enable proof known pattern exceeds its width"
      else return ()

/-- The description of a node, inspected once. -/
def describe (node : Node) : FailureOr β NodeView := do
  spend A 1
  if reserved node then
    reject "owner-enable proof adapter uses a reserved node identity"
  else
    match (← get).views.lookup node with
    | some view => return view
    | none =>
      match A.inspect with
      | none => failure
      | some inspect =>
        let view ← callback (inspect node)
        checkView view
        spend A (1 + view.operands.length)
        modify fun s => { s with views := (node, view) :: s.views }
        return view

/-- The width of a node, if it is known. -/
def width (value : Node) : FailureOr β (Option Nat) := do
  return (← describe A value).width

/-- The known pattern of a node, if it has one. -/
def constant (value : Node) (depth : Nat) : FailureOr β (Option Constant) := do
  let resolved ← canonical A value depth
  return (← describe A resolved).fullyKnown

/-- Known patterns compare as unsigned values, whatever their widths. -/
def equalConstants (a c : Constant) : Bool := a.value = c.value

/-- A one-bit pattern as an enable. -/
def Constant.truth (c : Constant) : Bool := c.value ≠ 0

/-! ## Addresses -/

/-- The value is the endpoint, or both are the same known pattern. -/
def sameAddress (value endpoint : Node) (depth : Nat) : FailureOr β Bool := do
  let resolved ← canonical A value depth
  if resolved = endpoint then return true
  else
    let constants ← both (constant A resolved depth) (constant A endpoint depth)
    match constants with
    | (some a, some c) => return equalConstants a c
    | _ => return false

/-- The comparison is that of the two addresses of the collision. -/
def collisionComparison (lhs rhs : Node) (depth : Nat) : FailureOr β Bool := do
  match (← get).collision with
  | none => return false
  | some (first, second) =>
    let straight ← both (sameAddress A lhs first depth) (sameAddress A rhs second depth)
    if straight.1 && straight.2 then return true
    else
      let crossed ← both (sameAddress A lhs second depth) (sameAddress A rhs first depth)
      return crossed.1 && crossed.2

/-! ## Facts -/

/-- Two facts that cannot both hold. -/
def contradictory (a c : Fact) : Bool :=
  if a.value ≠ c.value then false
  else
    match a.constant, c.constant with
    | some m, some n =>
      if a.width ≠ c.width then false
      else if m = n then a.polarity ≠ c.polarity
      else a.polarity && c.polarity
    | none, none => a.polarity ≠ c.polarity
    | _, _ => false

/-- `append` once the result is a list of facts: the new fact is compared with every prior one. -/
def appendFact (facts : List Fact) (fact : Fact) : List Fact → ProofM β Result
  | [] =>
    charged A 1
      (if facts.length = 256 then fail "owner-enable proof fact budget exhausted"
      else return .facts (facts ++ [fact]))
  | prior :: rest =>
    charged A 1
      (if prior = fact then return .facts facts
      else if contradictory prior fact then return .impossible
      else appendFact facts fact rest)

/-- A fact is added unless it is there or contradicts one that is. -/
def append (result : Result) (fact : Fact) : ProofM β Result :=
  match result with
  | .facts facts => appendFact A facts fact facts
  | stopped => return stopped

/-- The facts are added in turn, up to the first that cannot be. -/
def appendAll (result : Result) : List Fact → ProofM β Result
  | [] => return result
  | fact :: rest => do
      match ← append A result fact with
      | .facts facts => appendAll (.facts facts) rest
      | stopped => return stopped

/-- Both premises hold. -/
def conjunction (a c : Result) : ProofM β Result :=
  charged A 1
    (match a, c with
    | .failure, _ => return .failure
    | _, .failure => return .failure
    | .impossible, _ => return .impossible
    | _, .impossible => return .impossible
    | .facts left, .facts right => charged A left.length (appendAll A (.facts left) right))

/-- The inner loop of `alternatives`. -/
def occurs (fact : Fact) : List Fact → FailureOr β Bool
  | [] => return false
  | other :: rest => do
      spend A 1
      if fact = other then
        spend A 1
        return true
      else occurs fact rest

/-- The facts of the first list that are in the second. -/
def common (right : List Fact) : List Fact → FailureOr β (List Fact)
  | [] => return []
  | fact :: rest => do
      let found ← occurs A fact right
      let others ← common right rest
      return if found then fact :: others else others

/-- One of the premises holds. -/
def alternatives (a c : Result) : ProofM β Result :=
  charged A 1
    (match a, c with
    | .failure, _ => return .failure
    | _, .failure => return .failure
    | .impossible, .facts facts => charged A facts.length (return .facts facts)
    | .impossible, .impossible => charged A 0 (return .impossible)
    | .facts facts, .impossible => charged A facts.length (return .facts facts)
    | .facts left, .facts right => do
        match ← (common A right left).run with
        | some facts => return .facts facts
        | none => return .failure)

/-! ## Queries -/

section Cases

/- The recursive query, at the next depth. -/
variable (query : Node → Bool → ProofM β Result)

/-- The selected arm has the polarity, whatever selects it. -/
def requiredSelect (condition whenTrue whenFalse : Node) (polarity : Bool) (depth : Nat) :
    FailureOr β Result := do
  let (yes, no) ← orFail "owner-enable proof select analysis failed"
    (both (canonical A whenTrue (depth + 1)) (canonical A whenFalse (depth + 1)))
  if yes = no then query yes polarity
  else
    let constants ← orFail "owner-enable proof select constant analysis failed"
      (both (constant A yes (depth + 1)) (constant A no (depth + 1)))
    match constants with
    | (some yesConstant, some noConstant) =>
      if yesConstant.truth = noConstant.truth then
        return if yesConstant.truth ≠ polarity then .impossible else .facts []
      else query condition (yesConstant.truth = polarity)
    | (none, some noConstant) =>
      let guard ← query condition (polarity ≠ noConstant.truth)
      let branch ← query yes polarity
      if polarity ≠ noConstant.truth then conjunction A guard branch
      else alternatives A guard branch
    | (some yesConstant, none) =>
      let guard ← query condition (polarity = yesConstant.truth)
      let branch ← query no polarity
      if polarity ≠ yesConstant.truth then conjunction A guard branch
      else alternatives A guard branch
    | (none, none) =>
      let guardTrue ← query condition true
      let guardFalse ← query condition false
      let yesFacts ← query yes polarity
      let noFacts ← query no polarity
      let selectedTrue ← conjunction A guardTrue yesFacts
      let selectedFalse ← conjunction A guardFalse noFacts
      -- an unknown selector gives a known result when both arms are known and equal
      let common ← conjunction A yesFacts noFacts
      let selected ← alternatives A selectedTrue selectedFalse
      alternatives A selected common

/-- `equal` tells whether the operands are known equal or known to differ. -/
def requiredCompare (lhs rhs : Node) (equal : Bool) (depth : Nat) : FailureOr β Result := do
  let inCollision ← orFail "address proof equality endpoint analysis failed"
    (collisionComparison A lhs rhs (depth + 1))
  -- a possible collision forbids a known inequality only
  let result : Result := if inCollision && !equal then .impossible else .facts []
  let constants ← orFail "owner-enable proof equality constant analysis failed"
    (both (constant A lhs (depth + 1)) (constant A rhs (depth + 1)))
  match constants with
  | (some left, some right) =>
    return if decide (left.width = right.width ∧ left.value = right.value) ≠ equal then
      .impossible else result
  | (some closed, none) =>
    let selector ← orFail "owner-enable proof equality selector analysis failed"
      (canonical A rhs (depth + 1))
    append A result ⟨selector, equal, some closed.value, closed.width⟩
  | (none, some closed) =>
    let selector ← orFail "owner-enable proof equality selector analysis failed"
      (canonical A lhs (depth + 1))
    append A result ⟨selector, equal, some closed.value, closed.width⟩
  | (none, none) => return result

/-- The facts that follow from the description of a node. -/
def requiredView (view : NodeView) (code : Option Constant) (polarity : Bool) (depth : Nat) :
    FailureOr β Result :=
  match code with
  | some code => return if code.truth ≠ polarity then .impossible else .facts []
  | none =>
    match view.kind, view.operands with
    | .not, [operand] => query operand (!polarity)
    | .and, [lhs, rhs] => do
        let left ← query lhs polarity
        let right ← query rhs polarity
        if polarity then conjunction A left right else alternatives A left right
    | .or, [lhs, rhs] => do
        let left ← query lhs polarity
        let right ← query rhs polarity
        if !polarity then conjunction A left right else alternatives A left right
    | .select, [condition, whenTrue, whenFalse] =>
      requiredSelect A query condition whenTrue whenFalse polarity depth
    | .eq, [lhs, rhs] => requiredCompare A lhs rhs polarity depth
    | .ne, [lhs, rhs] => requiredCompare A lhs rhs (!polarity) depth
    | _, _ => return .facts []

/-- What returning a result from the cache is charged. -/
def Result.size : Result → Nat
  | .facts derived => derived.length
  | _ => 0

/-- A query that is not in the cache. -/
def requiredNew (key : QueryKey) (depth : Nat) : FailureOr β Result := do
  if key ∈ (← get).visiting then reject "cycle in owner-enable proof queries"
  else
    modify fun s => { s with visiting := key :: s.visiting }
    let s ← get
    if s.cache.length + s.visiting.length > 4096 then
      reject "owner-enable proof query budget exhausted"
    else
      let count ← orFail "owner-enable proof width analysis failed" (width A key.value)
      if count ≠ some 1 then reject "owner-enable proof requires one-bit enable"
      else
        let view ← orFail "owner-enable proof node inspection failed" (describe A key.value)
        spend A view.operands.length
        let code ← orFail "owner-enable proof constant analysis failed"
          (constant A key.value depth)
        let found ← requiredView A query view code key.polarity depth
        let result ← append A found ⟨key.value, key.polarity, none, 0⟩
        modify fun s => { s with visiting := s.visiting.erase key }
        if result = .failure then return .failure
        else
          spend A result.size
          modify fun s => { s with cache := (key, result) :: s.cache }
          return result

/-- A query, answered from the cache where it can be. -/
def requiredAt (original : Node) (polarity : Bool) (depth : Nat) : FailureOr β Result := do
  spend A 1
  let value ← orFail "owner-enable proof normalization failed" (canonical A original depth)
  let s ← get
  let key : QueryKey := ⟨s.collision, value, polarity⟩
  match s.cache.lookup key with
  | some found =>
    spend A found.size
    return found
  | none => requiredNew A query key depth

end Cases

/-- `required`. The argument counts down the 128 levels of the recursion: the depth of a query is
128 minus its fuel. -/
def required : Nat → Node → Bool → ProofM β Result
  | 0, _, _ => charged A 1 (fail "owner-enable proof recursion budget exhausted")
  | fuel + 1, original, polarity => do
      match ← (requiredAt A (required fuel) original polarity (127 - fuel)).run with
      | some result => return result
      | none => return .failure

/-- Two enables are never one together. -/
def disjoint (first second : Node) : FailureOr β Bool := do
  spend A 1
  let left ← required A 128 first true
  let right ← required A 128 second true
  match ← conjunction A left right with
  | .failure => failure
  | .impossible => return true
  | .facts _ => return false

/-- A query under the assumption that two addresses are not known to differ. -/
def underCollision (pair : Node × Node) (m : FailureOr β Bool) : FailureOr β Bool := OptionT.mk do
  modify fun s => { s with collision := some pair }
  let result ← m.run
  modify fun s => { s with collision := none }
  return result

/-- Two enables are never one together at one address. -/
def disjointAtAddress (first second firstIndex secondIndex : Node) : FailureOr β Bool := do
  let (left, right) ← both (canonical A firstIndex 0) (canonical A secondIndex 0)
  let constants := both (constant A left 0) (constant A right 0)
  let widths := both (width A left) (width A right)
  let ((leftConstant, rightConstant), (leftWidth, rightWidth)) ← both constants widths
  if leftWidth = none ∨ rightWidth = none then
    reject "address proof requires typed Bits indices"
  else
    match leftConstant, rightConstant with
    | some a, some c =>
      if !equalConstants a c then return true
      else underCollision (left, right) (disjoint A first second)
    | none, none =>
      if leftWidth ≠ rightWidth then return false
      else underCollision (left, right) (disjoint A first second)
    | _, _ => underCollision (left, right) (disjoint A first second)

/-! ## Sequences of queries -/

/-- What a caller asks of one proof object. -/
inductive Query where
  | disjoint (first second : Node)
  | disjointAtAddress (first second firstIndex secondIndex : Node)
  deriving DecidableEq, Repr

/-- A query as a program of the proof. -/
def ask : Query → FailureOr β Bool
  | .disjoint first second => disjoint A first second
  | .disjointAtAddress first second firstIndex secondIndex =>
    disjointAtAddress A first second firstIndex secondIndex

/-- The answer to a query; none is a failure. -/
def answer (q : Query) (s : Prover β) : Option Bool := ((ask A q).run.run s).1

/-- The proof object after earlier queries. -/
def afterQueries (earlier : List Query) (s : Prover β) : Prover β :=
  earlier.foldl (fun s q => ((ask A q).run.run s).2) s

end

end PyCircuit.Grant
