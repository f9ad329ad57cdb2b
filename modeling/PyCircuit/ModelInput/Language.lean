import PyCircuit.ModelInput.Scan

/-!
# The language of the decoder

`parseModelConfigJson` accepts the empty object and the canonical text of every limits whose domain
names can be written, and nothing else. One direction is a round trip, entry by entry of
`max_domain_cycles`. In the other the decoder itself compares its input with the canonical text of
what it has read; what is left to show is that it only reads names that can be written.
-/

set_option autoImplicit false

namespace PyCircuit.ModelInput

/-- A domain name that the canonical text can hold. -/
structure DomainName (name : Bytes) : Prop where
  nonempty : name ≠ []
  clean : Clean name
  utf8 : IsUtf8 name

/-- Limits whose domain names can all be written. -/
def RuntimeLimits.Writable (limits : RuntimeLimits) : Prop :=
  ∀ entry ∈ limits.maxDomainCycles.entries, DomainName entry.1

/-! ## Maps -/

variable {m n : DomainCycles} {name prior rest input : Bytes} {limits : RuntimeLimits}

theorem DomainCycles.ext (h : m.entries = n.entries) : m = n := by
  cases m
  cases n
  cases h
  rfl

theorem DomainCycles.emplace_entries (value : UInt64)
    (h : ∀ entry ∈ m.entries, entry.1 < name) :
    (m.emplace name value).entries = m.entries ++ [(name, value)] := by
  have hinsert : ∀ entries : List (Bytes × UInt64), (∀ entry ∈ entries, entry.1 < name) →
      insertEntry name value entries = entries ++ [(name, value)] := by
    intro entries hentries
    induction entries with
    | nil => rfl
    | cons first rest ih =>
      have hfirst : first.1 < name := hentries first List.mem_cons_self
      have hnot : ¬ name < first.1 := fun hlt => List.lt_irrefl _ (List.lt_trans hfirst hlt)
      rw [insertEntry, if_neg hnot, if_pos hfirst,
        ih fun entry hentry => hentries entry (List.mem_cons_of_mem first hentry)]
      rfl
  exact hinsert m.entries h

/-! ## Reading the canonical text -/

/-- The text from the first of the entries to the closing brace. -/
def entriesText (entries : List (Bytes × UInt64)) (rest : Bytes) : Bytes :=
  (ascii ",").intercalate (entries.map entryText) ++ ascii "\x7d" ++ rest

theorem entriesText_singleton (entry : Bytes × UInt64) (rest : Bytes) :
    entriesText [entry] rest =
      quote entry.1 ++ (ascii ":" ++ (decimal entry.2 ++ 0x7d :: rest)) := by
  simp only [entriesText, List.map_cons, List.map_nil, List.intercalate_singleton, entryText,
    List.append_assoc]
  rfl

theorem entriesText_cons_cons (entry next : Bytes × UInt64) (entries : List (Bytes × UInt64))
    (rest : Bytes) :
    entriesText (entry :: next :: entries) rest =
      quote entry.1 ++ (ascii ":" ++
        (decimal entry.2 ++ 0x2c :: entriesText (next :: entries) rest)) := by
  simp only [entriesText, List.map_cons, List.intercalate_cons_cons, entryText, List.append_assoc]
  rfl

theorem domainEntry_text (hname : DomainName name) (hprior : prior < name)
    (value : UInt64) {b : UInt8} (hb : isDigit b = false) (rest : Bytes) :
    domainEntry prior (quote name ++ (ascii ":" ++ (decimal value ++ b :: rest))) =
      some (name, value, b :: rest) := by
  have hnot : ¬ (name = [] ∨ name ≤ prior) :=
    not_or.mpr ⟨hname.nonempty, fun hle => hle hprior⟩
  rw [domainEntry, string_quote hname.clean]
  simp only [Option.bind_some]
  rw [if_neg hnot, take_append, Option.bind_some, unsignedInteger_decimal value hb]
  rfl

theorem domainCycles_text (entries : List (Bytes × UInt64)) :
    ∀ (fuel : Nat) (prior : Bytes) (m : DomainCycles) (rest : Bytes),
      entries ≠ [] → entries.length ≤ fuel →
      (∀ entry ∈ entries, DomainName entry.1) →
      (∀ entry ∈ entries, prior < entry.1) →
      (m.entries ++ entries).Pairwise (fun a b => a.1 < b.1) →
      ∃ n : DomainCycles, n.entries = m.entries ++ entries ∧
        domainCycles fuel prior m (entriesText entries rest) = .ok (n, rest) := by
  induction entries with
  | nil =>
    intro fuel prior m rest hne
    exact absurd rfl hne
  | cons entry entries ih =>
    intro fuel prior m rest _ hfuel hnames hprior hsorted
    obtain ⟨fuel, rfl⟩ : ∃ k, fuel = k + 1 :=
      Nat.exists_eq_succ_of_ne_zero (by rw [List.length_cons] at hfuel; omega)
    have hname := hnames entry List.mem_cons_self
    have hless := hprior entry List.mem_cons_self
    have hemplace : (m.emplace entry.1 entry.2).entries = m.entries ++ [entry] :=
      DomainCycles.emplace_entries entry.2 fun other hother =>
        (List.pairwise_append.mp hsorted).2.2 other hother entry List.mem_cons_self
    cases entries with
    | nil =>
      refine ⟨m.emplace entry.1 entry.2, hemplace, ?_⟩
      have htake : take (ascii "\x7d") (0x7d :: rest) = some rest := take_append [0x7d] rest
      rw [domainCycles, entriesText_singleton,
        domainEntry_text hname hless entry.2 (by decide) rest]
      simp only [htake]
    | cons next entries =>
      have htail := (List.pairwise_append.mp hsorted).2.1
      obtain ⟨n, hn, hrun⟩ := ih fuel entry.1 (m.emplace entry.1 entry.2) rest
        (List.cons_ne_nil _ _) (by simpa using hfuel)
        (List.forall_mem_cons.mp hnames).2
        ((List.pairwise_cons.mp htail).1)
        (by rw [hemplace, List.append_assoc]; exact hsorted)
      refine ⟨n, by rw [hn, hemplace, List.append_assoc]; rfl, ?_⟩
      have hbrace : take (ascii "\x7d") (0x2c :: entriesText (next :: entries) rest) = none :=
        take_cons_ne (by decide) _ _
      have hcomma : take (ascii ",") (0x2c :: entriesText (next :: entries) rest) =
          some (entriesText (next :: entries) rest) := take_append [0x2c] _
      rw [domainCycles, entriesText_cons_cons,
        domainEntry_text hname hless entry.2 (by decide)]
      exact hrun

theorem nil_lt_of_ne_nil (h : name ≠ []) : [] < name := by
  cases name with
  | nil => exact absurd rfl h
  | cons b rest => exact List.nil_lt_cons b rest

theorem length_le_entriesText (entries : List (Bytes × UInt64)) (rest : Bytes) :
    entries.length ≤ (entriesText entries rest).length := by
  induction entries with
  | nil => exact Nat.zero_le _
  | cons entry entries ih =>
    cases entries with
    | nil =>
      rw [entriesText_singleton]
      simp only [List.length_append, List.length_cons, List.length_nil]
      omega
    | cons next entries =>
      rw [entriesText_cons_cons]
      simp only [List.length_append, List.length_cons] at ih ⊢
      omega

theorem domains_text (h : limits.Writable) (rest : Bytes) :
    domains (entriesText limits.maxDomainCycles.entries rest) =
      .ok (limits.maxDomainCycles, rest) := by
  cases hentries : limits.maxDomainCycles.entries with
  | nil =>
    have htake : take (ascii "\x7d") (entriesText [] rest) = some rest := take_append [0x7d] rest
    have hempty : limits.maxDomainCycles = .empty := DomainCycles.ext hentries
    rw [domains, htake, hempty]
  | cons entry entries =>
    have hnames : ∀ other ∈ entry :: entries, DomainName other.1 := by
      rw [← hentries]
      exact h
    obtain ⟨n, hn, hrun⟩ := domainCycles_text (entry :: entries)
      (entriesText (entry :: entries) rest).length [] .empty rest (List.cons_ne_nil _ _)
      (length_le_entriesText _ _) hnames
      (fun other hother => nil_lt_of_ne_nil (hnames other hother).nonempty)
      (by rw [← hentries]; exact limits.maxDomainCycles.sorted)
    have hsame : n = limits.maxDomainCycles := DomainCycles.ext (hn.trans hentries.symm)
    have hquote : ∃ tail, entriesText (entry :: entries) rest = 0x22 :: tail := by
      have hclean := (hnames entry List.mem_cons_self).clean
      cases entries with
      | nil => exact ⟨_, by rw [entriesText_singleton, quote_clean hclean]; rfl⟩
      | cons next entries => exact ⟨_, by rw [entriesText_cons_cons, quote_clean hclean]; rfl⟩
    obtain ⟨tail, htail⟩ := hquote
    have htake : take (ascii "\x7d") (entriesText (entry :: entries) rest) = none := by
      rw [htail]
      exact take_cons_ne (by decide) _ _
    rw [domains, htake, ← hsame]
    exact hrun

/-- The canonical text in the pieces the decoder reads. -/
theorem canonicalConfig_eq (limits : RuntimeLimits) :
    canonicalConfig limits =
      ascii "\x7b\"deadlock_window\":" ++ (optionalText limits.deadlockWindow ++
        (ascii ",\"max_domain_cycles\":\x7b" ++
          entriesText limits.maxDomainCycles.entries
            (ascii ",\"max_ticks\":" ++ (optionalText limits.maxTicks ++
              ascii ",\"schema\":\"pycircuit-model-config\",\"version\":\"1\"\x7d")))) := by
  have hbrace : ascii "\x7d,\"max_ticks\":" = ascii "\x7d" ++ ascii ",\"max_ticks\":" := rfl
  simp only [canonicalConfig, entriesText, hbrace, List.append_assoc]

theorem header_text (window : Option UInt64) (rest : Bytes) :
    header (ascii "\x7b\"deadlock_window\":" ++ (optionalText window ++
      (ascii ",\"max_domain_cycles\":\x7b" ++ rest))) = some (window, rest) := by
  rw [header, take_append, Option.bind_some]
  have hcomma : ascii ",\"max_domain_cycles\":\x7b" ++ rest =
      0x2c :: (ascii "\"max_domain_cycles\":\x7b" ++ rest) := rfl
  rw [hcomma, optionalUnsigned_text window (by decide), ← hcomma]
  simp only [Option.bind_some]
  rw [take_append]
  rfl

theorem trailer_text (ticks : Option UInt64) :
    trailer (ascii ",\"max_ticks\":" ++ (optionalText ticks ++
      ascii ",\"schema\":\"pycircuit-model-config\",\"version\":\"1\"\x7d")) =
        some (ticks, []) := by
  rw [trailer, take_append, Option.bind_some]
  have hcomma : ascii ",\"schema\":\"pycircuit-model-config\",\"version\":\"1\"\x7d" =
      0x2c :: ascii "\"schema\":\"pycircuit-model-config\",\"version\":\"1\"\x7d" := rfl
  rw [hcomma, optionalUnsigned_text ticks (by decide), ← hcomma]
  simp only [Option.bind_some]
  have htake :=
    take_append (ascii ",\"schema\":\"pycircuit-model-config\",\"version\":\"1\"\x7d") []
  rw [List.append_nil] at htake
  rw [htake]
  rfl

/-! ## The encoding of the canonical text -/

theorem isUtf8_literal {text : String}
    (h : ((ascii text).all fun b => decide (b.toNat < 128)) = true) : IsUtf8 (ascii text) :=
  IsUtf8.of_ascii fun b hb => of_decide_eq_true (List.all_eq_true.mp h b hb)

theorem isUtf8_decimal (value : UInt64) : IsUtf8 (decimal value) := by
  refine IsUtf8.of_ascii fun b hb => ?_
  have := (isDigit_iff b).mp (decimal_digits value b hb)
  omega

theorem isUtf8_optionalText (limit : Option UInt64) : IsUtf8 (optionalText limit) := by
  cases limit with
  | none => exact isUtf8_literal rfl
  | some value => exact isUtf8_decimal value

theorem isUtf8_quote (h : DomainName name) : IsUtf8 (quote name) := by
  rw [quote_clean h.clean]
  exact IsUtf8.cons (by decide)
    ((isUtf8_escaped h.clean h.utf8).append (IsUtf8.singleton (by decide)))

theorem isUtf8_entriesText {entries : List (Bytes × UInt64)}
    (h : ∀ entry ∈ entries, DomainName entry.1) (hrest : IsUtf8 rest) :
    IsUtf8 (entriesText entries rest) := by
  induction entries with
  | nil => exact IsUtf8.cons (by decide) hrest
  | cons entry entries ih =>
    have hname := isUtf8_quote (h entry List.mem_cons_self)
    have htail := ih (List.forall_mem_cons.mp h).2
    have hcolon : IsUtf8 (ascii ":") := isUtf8_literal rfl
    cases entries with
    | nil =>
      rw [entriesText_singleton]
      exact hname.append (hcolon.append
        ((isUtf8_decimal entry.2).append (IsUtf8.cons (by decide) hrest)))
    | cons next entries =>
      rw [entriesText_cons_cons]
      exact hname.append (hcolon.append
        ((isUtf8_decimal entry.2).append (IsUtf8.cons (by decide) htail)))

theorem isUtf8_canonicalConfig (h : limits.Writable) :
    IsUtf8 (canonicalConfig limits) := by
  have hschema : IsUtf8 (ascii ",\"schema\":\"pycircuit-model-config\",\"version\":\"1\"\x7d") :=
    isUtf8_literal rfl
  have hticks : IsUtf8 (ascii ",\"max_ticks\":") := isUtf8_literal rfl
  have hdomains : IsUtf8 (ascii ",\"max_domain_cycles\":\x7b") := isUtf8_literal rfl
  have hwindow : IsUtf8 (ascii "\x7b\"deadlock_window\":") := isUtf8_literal rfl
  rw [canonicalConfig_eq]
  exact hwindow.append ((isUtf8_optionalText _).append (hdomains.append (isUtf8_entriesText h
    (hticks.append ((isUtf8_optionalText _).append hschema)))))

/-- A name of a UTF-8 text is UTF-8. -/
theorem isUtf8_names {entries : List (Bytes × UInt64)} {before : Bytes}
    (hclean : ∀ entry ∈ entries, Clean entry.1) (h : IsUtf8 (before ++ entriesText entries rest)) :
    ∀ entry ∈ entries, IsUtf8 entry.1 := by
  induction entries generalizing before with
  | nil => exact List.forall_mem_nil _
  | cons entry entries ih =>
    have hquote := quote_clean (hclean entry List.mem_cons_self)
    have hname : ∀ tail, IsUtf8 (before ++ (quote entry.1 ++ tail)) →
        IsUtf8 entry.1 ∧ IsUtf8 tail := by
      intro tail htail
      rw [hquote, List.cons_append, List.append_assoc] at htail
      obtain ⟨_, hbody⟩ := IsUtf8.split (by decide : (0x22 : UInt8).toNat < 128) htail
      obtain ⟨hescaped, hafter⟩ := IsUtf8.split (by decide : (0x22 : UInt8).toNat < 128) hbody
      have hempty : IsUtf8 ([] ++ escaped entry.1) := hescaped
      exact ⟨isUtf8_of_escaped (hclean entry List.mem_cons_self) hempty, hafter⟩
    cases entries with
    | nil =>
      rw [entriesText_singleton] at h
      exact List.forall_mem_singleton.mpr (hname _ h).1
    | cons next entries =>
      rw [entriesText_cons_cons] at h
      obtain ⟨hfirst, htail⟩ := hname _ h
      have hnext : IsUtf8 ((ascii ":" ++ decimal entry.2 ++ [0x2c]) ++
          entriesText (next :: entries) rest) := by simpa using htail
      exact List.forall_mem_cons.mpr ⟨hfirst, ih (List.forall_mem_cons.mp hclean).2 hnext⟩

/-! ## What the decoder reads -/

/-- A name as the scanner reads it. -/
def Scanned (name : Bytes) : Prop := name ≠ [] ∧ Clean name

theorem domainEntry_scanned {value : UInt64}
    (h : domainEntry prior input = some (name, value, rest)) : Scanned name := by
  rw [domainEntry, Option.bind_eq_some_iff] at h
  obtain ⟨⟨read, tail⟩, hstring, h⟩ := h
  simp only [] at h
  split_ifs at h with htest
  rw [Option.bind_eq_some_iff] at h
  obtain ⟨after, _, h⟩ := h
  obtain ⟨⟨number, final⟩, _, hresult⟩ := Option.map_eq_some_iff.mp h
  cases hresult
  exact ⟨(not_or.mp htest).1, string_clean hstring⟩

theorem emplace_scanned (value : UInt64)
    (hm : ∀ entry ∈ m.entries, Scanned entry.1) (hname : Scanned name) :
    ∀ entry ∈ (m.emplace name value).entries, Scanned entry.1 := by
  intro entry hentry
  rcases DomainCycles.mem_insertEntry hentry with rfl | hentry
  · exact hname
  · exact hm entry hentry

theorem domainCycles_scanned {fuel : Nat}
    (hm : ∀ entry ∈ m.entries, Scanned entry.1)
    (h : domainCycles fuel prior m input = .ok (n, rest)) :
    ∀ entry ∈ n.entries, Scanned entry.1 := by
  induction fuel generalizing prior m input with
  | zero => cases h
  | succ fuel ih =>
    rw [domainCycles] at h
    cases hentry : domainEntry prior input with
    | none => rw [hentry] at h; cases h
    | some read =>
      obtain ⟨name, value, after⟩ := read
      have hscanned := emplace_scanned value hm (domainEntry_scanned hentry)
      simp only [hentry] at h
      cases hbrace : take (ascii "\x7d") after with
      | some final =>
        simp only [hbrace] at h
        cases h
        exact hscanned
      | none =>
        simp only [hbrace] at h
        cases hcomma : take (ascii ",") after with
        | none => rw [hcomma] at h; cases h
        | some final =>
          simp only [hcomma] at h
          exact ih hscanned h

theorem domains_scanned
    (h : domains input = .ok (n, rest)) : ∀ entry ∈ n.entries, Scanned entry.1 := by
  rw [domains] at h
  cases hbrace : take (ascii "\x7d") input with
  | some final =>
    rw [hbrace] at h
    cases h
    exact List.forall_mem_nil _
  | none =>
    rw [hbrace] at h
    exact domainCycles_scanned (m := .empty) (List.forall_mem_nil _) h

/-! ## The language -/

theorem canonicalConfig_ne_empty (limits : RuntimeLimits) :
    canonicalConfig limits ≠ ascii "\x7b\x7d" := by
  rw [canonicalConfig_eq]
  intro h
  have hsecond := congrArg (fun bytes => bytes[1]?) h
  simp [ascii] at hsecond

theorem parse_canonicalConfig (h : limits.Writable) :
    parseModelConfigJson (canonicalConfig limits) = .ok limits := by
  have hutf8 : isValidUtf8 (canonicalConfig limits) = true :=
    (isValidUtf8_iff _).mpr (isUtf8_canonicalConfig h)
  rw [parseModelConfigJson, hutf8]
  simp only [Bool.not_true, Bool.false_eq_true, if_false]
  rw [if_neg (canonicalConfig_ne_empty limits)]
  have hheader := header_text limits.deadlockWindow
    (entriesText limits.maxDomainCycles.entries (ascii ",\"max_ticks\":" ++
      (optionalText limits.maxTicks ++
        ascii ",\"schema\":\"pycircuit-model-config\",\"version\":\"1\"\x7d")))
  rw [← canonicalConfig_eq] at hheader
  simp only [hheader, domains_text h, trailer_text]
  rw [if_neg (by simp)]

theorem parse_empty : parseModelConfigJson (ascii "\x7b\x7d") = .ok .unlimited := by
  rw [parseModelConfigJson]
  rfl

theorem parse_writable
    (h : parseModelConfigJson input = .ok limits) (hne : input ≠ ascii "\x7b\x7d") :
    limits.Writable ∧ input = canonicalConfig limits := by
  rw [parseModelConfigJson] at h
  cases hutf8 : isValidUtf8 input with
  | false => simp [hutf8] at h
  | true =>
    simp only [hutf8, Bool.not_true, Bool.false_eq_true, if_false, if_neg hne] at h
    cases hheader : header input with
    | none => simp [hheader] at h
    | some read =>
      obtain ⟨window, rest⟩ := read
      simp only [hheader] at h
      cases hdomains : domains rest with
      | error error => simp [hdomains] at h
      | ok read =>
        obtain ⟨cycles, rest⟩ := read
        simp only [hdomains] at h
        cases htrailer : trailer rest with
        | none => simp [htrailer] at h
        | some read =>
          obtain ⟨ticks, rest⟩ := read
          simp only [htrailer] at h
          split_ifs at h with htest
          cases h
          have hcanonical : canonicalConfig ⟨window, ticks, cycles⟩ = input :=
            not_not.mp (not_or.mp htest).2
          refine ⟨?_, hcanonical.symm⟩
          have hscanned := domains_scanned hdomains
          have hinput := (isValidUtf8_iff input).mp hutf8
          rw [← hcanonical, canonicalConfig_eq, ← List.append_assoc, ← List.append_assoc]
            at hinput
          intro entry hentry
          exact ⟨(hscanned entry hentry).1, (hscanned entry hentry).2,
            isUtf8_names (fun x hx => (hscanned x hx).2) hinput entry hentry⟩

/-- The decoder accepts a byte string exactly when it is the empty object, which sets no limit, or
the canonical text of limits whose domain names can be written, and then it returns these limits.
Two different accepted strings other than the empty object therefore have different limits. -/
theorem decoder_language (input : Bytes) (limits : RuntimeLimits) :
    (parseModelConfigJson input = .ok limits ↔
      (input = ascii "\x7b\x7d" ∧ limits = .unlimited) ∨
        (limits.Writable ∧ input = canonicalConfig limits)) ∧
    ∀ other, parseModelConfigJson input = .ok limits → parseModelConfigJson other = .ok limits →
      input ≠ ascii "\x7b\x7d" → other ≠ ascii "\x7b\x7d" → input = other := by
  refine ⟨⟨fun h => ?_, ?_⟩, ?_⟩
  · by_cases hempty : input = ascii "\x7b\x7d"
    · rw [hempty, parse_empty] at h
      cases h
      exact Or.inl ⟨hempty, rfl⟩
    · exact Or.inr (parse_writable h hempty)
  · rintro (⟨rfl, rfl⟩ | ⟨hwritable, rfl⟩)
    · exact parse_empty
    · exact parse_canonicalConfig hwritable
  · intro other hinput hother hne hne'
    rw [(parse_writable hinput hne).2, (parse_writable hother hne').2]

end PyCircuit.ModelInput
