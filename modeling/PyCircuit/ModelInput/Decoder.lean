import Mathlib.Data.List.Basic
import Mathlib.Data.Nat.Digits.Defs

/-!
# The model-config decoder

The functions of `model_input.cpp` over byte strings. The parser keeps a view of its input and a
cursor; here each of its functions takes the bytes from the cursor on and returns those that are
left. A `std::map` is its list of entries in the order of the keys.
-/

set_option autoImplicit false

namespace PyCircuit.ModelInput

/-- A `std::string` or a `std::string_view`. -/
abbrev Bytes := List UInt8

/-- The bytes of a literal. -/
def ascii (text : String) : Bytes := text.toList.map fun c => UInt8.ofNat c.toNat

/-! ## Runtime limits -/

/-- A `std::map<std::string, uint64_t>`. -/
structure DomainCycles where
  entries : List (Bytes × UInt64)
  sorted : entries.Pairwise fun a b => a.1 < b.1

/-- The limits a configuration sets. -/
structure RuntimeLimits where
  deadlockWindow : Option UInt64
  maxTicks : Option UInt64
  maxDomainCycles : DomainCycles

namespace DomainCycles

/-- A map without entries. -/
def empty : DomainCycles := ⟨[], List.Pairwise.nil⟩

/-- Insertion into the entries; an entry that is there stays. -/
def insertEntry (name : Bytes) (value : UInt64) : List (Bytes × UInt64) → List (Bytes × UInt64)
  | [] => [(name, value)]
  | entry :: rest =>
    if name < entry.1 then (name, value) :: entry :: rest
    else if entry.1 < name then entry :: insertEntry name value rest
    else entry :: rest

theorem mem_insertEntry {name : Bytes} {value : UInt64} {entries : List (Bytes × UInt64)}
    {entry : Bytes × UInt64} (h : entry ∈ insertEntry name value entries) :
    entry = (name, value) ∨ entry ∈ entries := by
  induction entries with
  | nil => exact Or.inl (List.mem_singleton.mp h)
  | cons first rest ih =>
    rw [insertEntry] at h
    split_ifs at h with hbefore hafter
    · exact List.mem_cons.mp h
    · rcases List.mem_cons.mp h with rfl | h
      · exact Or.inr List.mem_cons_self
      · exact (ih h).imp_right (List.mem_cons_of_mem first)
    · exact Or.inr h

theorem sorted_insertEntry (name : Bytes) (value : UInt64) {entries : List (Bytes × UInt64)}
    (h : entries.Pairwise fun a b => a.1 < b.1) :
    (insertEntry name value entries).Pairwise fun a b => a.1 < b.1 := by
  induction entries with
  | nil => exact List.pairwise_singleton _ _
  | cons first rest ih =>
    obtain ⟨hfirst, hrest⟩ := List.pairwise_cons.mp h
    rw [insertEntry]
    split_ifs with hbefore hafter
    · exact List.pairwise_cons.mpr ⟨List.forall_mem_cons.mpr
        ⟨hbefore, fun entry hentry => List.lt_trans hbefore (hfirst entry hentry)⟩, h⟩
    · refine List.pairwise_cons.mpr ⟨?_, ih hrest⟩
      intro entry hentry
      rcases mem_insertEntry hentry with rfl | hentry
      · exact hafter
      · exact hfirst entry hentry
    · exact h

/-- `std::map::emplace`. -/
def emplace (m : DomainCycles) (name : Bytes) (value : UInt64) : DomainCycles :=
  ⟨insertEntry name value m.entries, sorted_insertEntry name value m.sorted⟩

end DomainCycles

/-- `RuntimeLimits{}`. -/
def RuntimeLimits.unlimited : RuntimeLimits := ⟨none, none, .empty⟩

/-! ## UTF-8 -/

/-- What the first byte of a longer sequence says: the number of continuation bytes, its own bits of
the code point, and the least code point of this length. -/
def leadForm (lead : UInt8) : Option (Nat × Nat × Nat) :=
  if lead &&& 0xe0 = 0xc0 then some (1, (lead &&& 0x1f).toNat, 0x80)
  else if lead &&& 0xf0 = 0xe0 then some (2, (lead &&& 0x0f).toNat, 0x800)
  else if lead &&& 0xf8 = 0xf0 then some (3, (lead &&& 0x07).toNat, 0x10000)
  else none

/-- The code point with the bits of a continuation byte. -/
def addContinuation (codePoint : Nat) (continuation : UInt8) : Nat :=
  codePoint <<< 6 ||| (continuation &&& 0x3f).toNat

/-- The loop of `isValidUtf8`, with a bound for its rounds. -/
def validFrom : Nat → Bytes → Bool
  | _, [] => true
  | 0, _ :: _ => false
  | fuel + 1, lead :: rest =>
    if lead < 0x80 then validFrom fuel rest
    else
      match leadForm lead with
      | none => false
      | some (count, bits, minimum) =>
        if rest.length < count then false
        else if (rest.take count).any fun continuation => continuation &&& 0xc0 != 0x80 then false
        else
          let codePoint := (rest.take count).foldl addContinuation bits
          if codePoint < minimum ∨ codePoint > 0x10ffff ∨
              (codePoint ≥ 0xd800 ∧ codePoint ≤ 0xdfff) then false
          else validFrom fuel (rest.drop count)

/-- `isValidUtf8`. -/
def isValidUtf8 (input : Bytes) : Bool := validFrom input.length input

/-! ## The parser -/

/-- `Parser::take`. -/
def take (token input : Bytes) : Option Bytes :=
  if token.isPrefixOf input then some (input.drop token.length) else none

/-- `Parser::null`. -/
def null (input : Bytes) : Option Bytes := take (ascii "null") input

def isDigit (byte : UInt8) : Bool := 0x30 ≤ byte && byte ≤ 0x39

/-- The value of a string of digits. -/
def digitsValue (digits : Bytes) : Nat :=
  digits.foldl (fun value digit => 10 * value + (digit.toNat - 0x30)) 0

/-- `std::from_chars` on a string of digits: out of range gives an error. -/
def fromChars (digits : Bytes) : Option UInt64 :=
  if digitsValue digits < 2 ^ 64 then some (UInt64.ofNat (digitsValue digits)) else none

/-- `Parser::unsignedInteger`. -/
def unsignedInteger (input : Bytes) : Option (UInt64 × Bytes) :=
  let digits := input.takeWhile isDigit
  if digits = [] ∨ (digits.length > 1 ∧ digits.head? = some 0x30) then none
  else (fromChars digits).map fun value => (value, input.dropWhile isDigit)

/-- The byte that an escape stands for. -/
def unescape (byte : UInt8) : Option UInt8 :=
  if byte = 0x22 then some 0x22
  else if byte = 0x5c then some 0x5c
  else if byte = 0x2f then some 0x2f
  else if byte = 0x62 then some 0x08
  else if byte = 0x66 then some 0x0c
  else if byte = 0x6e then some 0x0a
  else if byte = 0x72 then some 0x0d
  else if byte = 0x74 then some 0x09
  else none

/-- The loop of `Parser::string`; it ends at the closing quotation mark. -/
def stringBody : Bytes → Bytes → Option (Bytes × Bytes)
  | _, [] => none
  | result, value :: rest =>
    if value = 0x22 then some (result, rest)
    else if value < 0x20 then none
    else if value ≠ 0x5c then stringBody (result ++ [value]) rest
    else
      match rest with
      | [] => none
      | escaped :: rest =>
        match unescape escaped with
        | none => none
        | some byte => stringBody (result ++ [byte]) rest

/-- `Parser::string`. -/
def string (input : Bytes) : Option (Bytes × Bytes) :=
  (take [0x22] input).bind (stringBody [])

/-- `optionalUnsigned`. -/
def optionalUnsigned (input : Bytes) : Option (Option UInt64 × Bytes) :=
  match null input with
  | some rest => some (none, rest)
  | none => (unsignedInteger input).map fun (value, rest) => (some value, rest)

/-! ## The canonical text -/

/-- The text `quote` writes for a byte; other control characters have none. -/
def escape (byte : UInt8) : Option Bytes :=
  if byte = 0x22 then some [0x5c, 0x22]
  else if byte = 0x5c then some [0x5c, 0x5c]
  else if byte = 0x08 then some [0x5c, 0x62]
  else if byte = 0x0c then some [0x5c, 0x66]
  else if byte = 0x0a then some [0x5c, 0x6e]
  else if byte = 0x0d then some [0x5c, 0x72]
  else if byte = 0x09 then some [0x5c, 0x74]
  else if byte < 0x20 then none
  else some [byte]

/-- `quote`. -/
def quote (value : Bytes) : Bytes :=
  match value.mapM escape with
  | none => []
  | some parts => [0x22] ++ parts.flatten ++ [0x22]

/-- An unsigned integer on a stream. -/
def decimal (value : UInt64) : Bytes :=
  if value.toNat = 0 then [0x30]
  else (Nat.digits 10 value.toNat).reverse.map fun digit => UInt8.ofNat (0x30 + digit)

/-- An optional limit on the stream. -/
def optionalText (limit : Option UInt64) : Bytes :=
  match limit with
  | some value => decimal value
  | none => ascii "null"

/-- An entry of the map on the stream. -/
def entryText (entry : Bytes × UInt64) : Bytes := quote entry.1 ++ ascii ":" ++ decimal entry.2

/-- `canonicalConfig`. -/
def canonicalConfig (limits : RuntimeLimits) : Bytes :=
  ascii "\x7b\"deadlock_window\":" ++ optionalText limits.deadlockWindow ++
    ascii ",\"max_domain_cycles\":\x7b" ++
    (ascii ",").intercalate (limits.maxDomainCycles.entries.map entryText) ++
    ascii "\x7d,\"max_ticks\":" ++ optionalText limits.maxTicks ++
    ascii ",\"schema\":\"pycircuit-model-config\",\"version\":\"1\"\x7d"

/-! ## Decoding -/

/-- The tests of one entry of `max_domain_cycles`. -/
def domainEntry (prior input : Bytes) : Option (Bytes × UInt64 × Bytes) :=
  (string input).bind fun (name, rest) =>
    if name = [] ∨ name ≤ prior then none
    else
      (take (ascii ":") rest).bind fun rest =>
        (unsignedInteger rest).map fun (value, rest) => (name, value, rest)

/-- The loop over `max_domain_cycles`, with a bound for its rounds. -/
def domainCycles : Nat → Bytes → DomainCycles → Bytes → Except String (DomainCycles × Bytes)
  | 0, _, _, _ => .error "model config max_domain_cycles is not canonical"
  | fuel + 1, prior, limits, input =>
    match domainEntry prior input with
    | none => .error "model config max_domain_cycles is not canonical"
    | some (name, value, rest) =>
      match take (ascii "\x7d") rest with
      | some rest => .ok (limits.emplace name value, rest)
      | none =>
        match take (ascii ",") rest with
        | none => .error "model config max_domain_cycles is malformed"
        | some rest => domainCycles fuel name (limits.emplace name value) rest

/-- `max_domain_cycles` after its opening brace. -/
def domains (input : Bytes) : Except String (DomainCycles × Bytes) :=
  match take (ascii "\x7d") input with
  | some rest => .ok (.empty, rest)
  | none => domainCycles input.length [] .empty input

/-- The text before the first domain. -/
def header (input : Bytes) : Option (Option UInt64 × Bytes) :=
  (take (ascii "\x7b\"deadlock_window\":") input).bind fun rest =>
    (optionalUnsigned rest).bind fun (window, rest) =>
      (take (ascii ",\"max_domain_cycles\":\x7b") rest).map fun rest => (window, rest)

/-- The text after the last domain. -/
def trailer (input : Bytes) : Option (Option UInt64 × Bytes) :=
  (take (ascii ",\"max_ticks\":") input).bind fun rest =>
    (optionalUnsigned rest).bind fun (ticks, rest) =>
      (take (ascii ",\"schema\":\"pycircuit-model-config\",\"version\":\"1\"\x7d") rest).map
        fun rest => (ticks, rest)

/-- `parseModelConfigJson`. -/
def parseModelConfigJson (input : Bytes) : Except String RuntimeLimits :=
  if !isValidUtf8 input then .error "model config is not valid UTF-8"
  else if input = ascii "\x7b\x7d" then .ok .unlimited
  else
    match header input with
    | none => .error "model config is malformed or has unknown fields"
    | some (window, rest) =>
      match domains rest with
      | .error error => .error error
      | .ok (cycles, rest) =>
        match trailer rest with
        | none => .error "model config is not canonical v1 JSON"
        | some (ticks, rest) =>
          if rest ≠ [] ∨ canonicalConfig ⟨window, ticks, cycles⟩ ≠ input then
            .error "model config is not canonical v1 JSON"
          else .ok ⟨window, ticks, cycles⟩

end PyCircuit.ModelInput
