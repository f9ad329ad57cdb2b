import PyCircuit.Lib.Hex
import Mathlib.Data.List.Infix
import Mathlib.Data.List.Count

/-!
# Emitted identifiers

`legalizeIdentifier` of `FinalCppNames.cpp` gives one spelling of a source name for C++ and
SystemVerilog. A plain identifier that no list of reserved words holds is kept; every other name is
written as `pyc_` and the hexadecimal digits of its bytes. The lists hold the keywords of both
languages except the SystemVerilog keyword `inout`, which is kept.
-/

set_option autoImplicit false

namespace PyCircuit.FinalCppNames

open PyCircuit.Lib

/-! ## The legalizer -/

def isAsciiAlpha (b : UInt8) : Bool := (97 ≤ b && b ≤ 122) || (65 ≤ b && b ≤ 90)

def isAsciiDigit (b : UInt8) : Bool := 48 ≤ b && b ≤ 57

/-- The words of `isCppKeyword`. -/
def cppWords : List (List UInt8) :=
  ["alignas", "alignof", "and", "and_eq", "asm", "atomic_cancel", "atomic_commit",
    "atomic_noexcept", "auto", "bitand", "bitor", "bool", "break", "case", "catch", "char",
    "char8_t", "char16_t", "char32_t", "class", "compl", "concept", "const", "consteval",
    "constexpr", "constinit", "const_cast", "continue", "co_await", "co_return", "co_yield",
    "decltype", "default", "delete", "do", "double", "dynamic_cast", "else", "enum", "explicit",
    "export", "extern", "false", "float", "for", "friend", "goto", "if", "import", "inline",
    "int", "long", "module", "mutable", "namespace", "new", "noexcept", "not", "not_eq",
    "nullptr", "operator", "or", "or_eq", "private", "protected", "public", "reflexpr",
    "register", "reinterpret_cast", "requires", "return", "short", "signed", "sizeof", "static",
    "static_assert", "static_cast", "struct", "switch", "synchronized", "template", "this",
    "thread_local", "throw", "true", "try", "typedef", "typeid", "typename", "union", "unsigned",
    "using", "virtual", "void", "volatile", "wchar_t", "while", "xor", "xor_eq"].map ascii

/-- Names of the generated classes, and words of SystemVerilog among the names of ports. -/
def classWords : List (List UInt8) :=
  ["Work", "Xfer", "Reset", "DiscardNext", "Build", "HasWork", "ReportStat", "name", "input",
    "output", "wire", "logic", "always", "assign", "end", "begin", "initial", "parameter",
    "localparam", "function", "endfunction", "task", "endtask", "package", "endpackage"].map ascii

/-- The further words of SystemVerilog. -/
def systemVerilogWords : List (List UInt8) :=
  ["accept_on", "alias", "always_comb", "always_ff", "always_latch", "assert", "assume",
    "automatic", "before", "bind", "bins", "binsof", "bit", "break", "buf", "bufif0", "bufif1",
    "byte", "case", "casex", "casez", "cell", "chandle", "checker", "class", "clocking", "cmos",
    "config", "const", "constraint", "context", "continue", "cover", "covergroup", "coverpoint",
    "cross", "deassign", "default", "defparam", "design", "disable", "dist", "do", "edge", "else",
    "endcase", "endchecker", "endclass", "endclocking", "endconfig", "endgenerate", "endgroup",
    "endinterface", "endmodule", "endprimitive", "endprogram", "endproperty", "endsequence",
    "endspecify", "endtable", "enum", "event", "eventually", "expect", "export", "extends",
    "extern", "final", "first_match", "for", "force", "foreach", "forever", "fork", "forkjoin",
    "genvar", "generate", "global", "highz0", "highz1", "if", "iff", "ifnone", "ignore_bins",
    "illegal_bins", "implements", "implies", "import", "incdir", "include", "inside", "instance",
    "int", "integer", "interconnect", "interface", "intersect", "join", "join_any", "join_none",
    "large", "let", "liblist", "library", "local", "localparam", "longint", "macromodule",
    "matches", "medium", "modport", "nand", "negedge", "nettype", "new", "nexttime", "nmos",
    "nor", "noshowcancelled", "not", "notif0", "notif1", "null", "or", "packed", "pmos",
    "posedge", "primitive", "priority", "program", "property", "protected", "pull0", "pull1",
    "pulldown", "pullup", "pulsestyle_onevent", "pulsestyle_ondetect", "pure", "rand", "randc",
    "randcase", "randsequence", "rcmos", "real", "realtime", "ref", "reg", "reject_on", "release",
    "repeat", "restrict", "return", "rnmos", "rpmos", "rtran", "rtranif0", "rtranif1", "s_always",
    "s_eventually", "s_nexttime", "s_until", "s_until_with", "scalared", "sequence", "shortint",
    "shortreal", "showcancelled", "signed", "small", "soft", "solve", "specify", "specparam",
    "static", "string", "strong", "strong0", "strong1", "struct", "super", "supply0", "supply1",
    "sync_accept_on", "sync_reject_on", "table", "tagged", "this", "throughout", "time",
    "timeprecision", "timeunit", "tran", "tranif0", "tranif1", "tri", "tri0", "tri1", "triand",
    "trior", "trireg", "type", "typedef", "union", "unique", "unique0", "unsigned", "until",
    "until_with", "untyped", "use", "uwire", "var", "vectored", "virtual", "void", "wait",
    "wait_order", "wand", "weak", "weak0", "weak1", "while", "wildcard", "with", "within", "wor",
    "xnor", "xor"].map ascii

def reserved : List (List UInt8) := classWords ++ systemVerilogWords

/-- A letter, a digit or an underscore. -/
def isWordByte (b : UInt8) : Bool := isAsciiAlpha b || isAsciiDigit b || b == 95

/-- The name has the form of an identifier of both languages and is none of the compiler. -/
def simple (source : List UInt8) : Bool :=
  !source.head?.any isAsciiDigit && source.all isWordByte && !(ascii "pyc_").isPrefixOf source &&
    source.head? != some 95 && source.getLast? != some 95 && !decide ([95, 95] <:+: source)

def legalizeIdentifier (source : List UInt8) : Except String (List UInt8) :=
  if source = [] then .error "C++ source identifier is empty"
  else if simple source ∧ source ∉ cppWords ∧ source ∉ reserved then .ok source
  else .ok (ascii "pyc_" ++ source.flatMap hexPair)

/-! ## Safe identifiers -/

/-- The keywords of C++20 and of its technical specifications, with `import` and `module`. -/
def cppKeywords : List (List UInt8) :=
  ["alignas", "alignof", "and", "and_eq", "asm", "atomic_cancel", "atomic_commit",
    "atomic_noexcept", "auto", "bitand", "bitor", "bool", "break", "case", "catch", "char",
    "char16_t", "char32_t", "char8_t", "class", "co_await", "co_return", "co_yield", "compl",
    "concept", "const", "const_cast", "consteval", "constexpr", "constinit", "continue",
    "decltype", "default", "delete", "do", "double", "dynamic_cast", "else", "enum", "explicit",
    "export", "extern", "false", "float", "for", "friend", "goto", "if", "import", "inline",
    "int", "long", "module", "mutable", "namespace", "new", "noexcept", "not", "not_eq",
    "nullptr", "operator", "or", "or_eq", "private", "protected", "public", "reflexpr",
    "register", "reinterpret_cast", "requires", "return", "short", "signed", "sizeof", "static",
    "static_assert", "static_cast", "struct", "switch", "synchronized", "template", "this",
    "thread_local", "throw", "true", "try", "typedef", "typeid", "typename", "union", "unsigned",
    "using", "virtual", "void", "volatile", "wchar_t", "while", "xor", "xor_eq"].map ascii

/-- The 248 keywords of IEEE 1800-2017. -/
def systemVerilogKeywords : List (List UInt8) :=
  ["accept_on", "alias", "always", "always_comb", "always_ff", "always_latch", "and", "assert",
    "assign", "assume", "automatic", "before", "begin", "bind", "bins", "binsof", "bit", "break",
    "buf", "bufif0", "bufif1", "byte", "case", "casex", "casez", "cell", "chandle", "checker",
    "class", "clocking", "cmos", "config", "const", "constraint", "context", "continue", "cover",
    "covergroup", "coverpoint", "cross", "deassign", "default", "defparam", "design", "disable",
    "dist", "do", "edge", "else", "end", "endcase", "endchecker", "endclass", "endclocking",
    "endconfig", "endfunction", "endgenerate", "endgroup", "endinterface", "endmodule",
    "endpackage", "endprimitive", "endprogram", "endproperty", "endsequence", "endspecify",
    "endtable", "endtask", "enum", "event", "eventually", "expect", "export", "extends", "extern",
    "final", "first_match", "for", "force", "foreach", "forever", "fork", "forkjoin", "function",
    "generate", "genvar", "global", "highz0", "highz1", "if", "iff", "ifnone", "ignore_bins",
    "illegal_bins", "implements", "implies", "import", "incdir", "include", "initial", "inout",
    "input", "inside", "instance", "int", "integer", "interconnect", "interface", "intersect",
    "join", "join_any", "join_none", "large", "let", "liblist", "library", "local", "localparam",
    "logic", "longint", "macromodule", "matches", "medium", "modport", "module", "nand",
    "negedge", "nettype", "new", "nexttime", "nmos", "nor", "noshowcancelled", "not", "notif0",
    "notif1", "null", "or", "output", "package", "packed", "parameter", "pmos", "posedge",
    "primitive", "priority", "program", "property", "protected", "pull0", "pull1", "pulldown",
    "pullup", "pulsestyle_ondetect", "pulsestyle_onevent", "pure", "rand", "randc", "randcase",
    "randsequence", "rcmos", "real", "realtime", "ref", "reg", "reject_on", "release", "repeat",
    "restrict", "return", "rnmos", "rpmos", "rtran", "rtranif0", "rtranif1", "s_always",
    "s_eventually", "s_nexttime", "s_until", "s_until_with", "scalared", "sequence", "shortint",
    "shortreal", "showcancelled", "signed", "small", "soft", "solve", "specify", "specparam",
    "static", "string", "strong", "strong0", "strong1", "struct", "super", "supply0", "supply1",
    "sync_accept_on", "sync_reject_on", "table", "tagged", "task", "this", "throughout", "time",
    "timeprecision", "timeunit", "tran", "tranif0", "tranif1", "tri", "tri0", "tri1", "triand",
    "trior", "trireg", "type", "typedef", "union", "unique", "unique0", "unsigned", "until",
    "until_with", "untyped", "use", "uwire", "var", "vectored", "virtual", "void", "wait",
    "wait_order", "wand", "weak", "weak0", "weak1", "while", "wildcard", "wire", "with", "within",
    "wor", "xnor", "xor"].map ascii

/-- An identifier of both languages without reserved underscores. -/
structure Safe (name : List UInt8) : Prop where
  head : ∃ b rest, name = b :: rest ∧ isAsciiAlpha b = true
  word : ∀ b ∈ name, isWordByte b = true
  noPair : ¬ [95, 95] <:+: name
  last : name.getLast? ≠ some 95
  notCpp : name ∉ cppKeywords
  notSystemVerilog : name ∉ systemVerilogKeywords

variable {source other result : List UInt8}

/-- The list of C++ words holds every keyword of the language. -/
theorem cppKeyword_listed : ∀ name ∈ cppKeywords, name ∈ cppWords := by
  have hrest : cppKeywords.diff cppWords = [] := by decide +kernel
  intro name hname
  by_contra hout
  have hleft := List.mem_diff_of_mem hname hout
  rw [hrest] at hleft
  cases hleft

/-- The lists hold every keyword of SystemVerilog but one. -/
theorem systemVerilogKeyword_listed : ∀ name ∈ systemVerilogKeywords,
    name ∈ reserved ∨ name ∈ cppWords ∨ name = ascii "inout" := by
  -- few keywords are left once the longest list is taken away
  have hrest : ∀ name ∈ systemVerilogKeywords.diff systemVerilogWords,
      name ∈ classWords ∨ name ∈ cppWords ∨ name = ascii "inout" := by decide +kernel
  intro name hname
  by_cases hword : name ∈ systemVerilogWords
  · exact Or.inl (List.mem_append_right _ hword)
  · exact (hrest name (List.mem_diff_of_mem hname hword)).imp_left (List.mem_append_left _)

theorem kept_safe (hne : source ≠ []) (hsimple : simple source = true)
    (hcpp : source ∉ cppWords) (hreserved : source ∉ reserved)
    (hinout : source ≠ ascii "inout") : Safe source := by
  obtain ⟨b, rest, rfl⟩ := List.exists_cons_of_ne_nil hne
  simp only [simple, Bool.and_eq_true, Bool.not_eq_true', List.all_eq_true, bne_iff_ne] at hsimple
  obtain ⟨⟨⟨⟨⟨hdigit, hword⟩, -⟩, hunder⟩, hlast⟩, hpair⟩ := hsimple
  refine ⟨⟨b, rest, rfl, ?_⟩, hword, by simpa using hpair, hlast,
    fun h => hcpp (cppKeyword_listed _ h), fun h => ?_⟩
  · have hb := hword b List.mem_cons_self
    simp only [List.head?_cons, Option.any_some] at hdigit
    simpa [isWordByte, hdigit, show b ≠ 95 by simpa using hunder] using hb
  · rcases systemVerilogKeyword_listed _ h with h | h | h
    · exact hreserved h
    · exact hcpp h
    · exact hinout h

/-! ## Encoded names -/

theorem hexDigit_byte (b : UInt8) :
    ∀ c ∈ hexPair b, isWordByte c = true ∧ c ≠ 95 := by
  have hall : (hexPair b).all (fun c => isWordByte c && c != 95) = true := by
    revert b
    exact forall_byte (by decide +kernel)
  simpa using hall

theorem encoded_byte {c : UInt8} (h : c ∈ source.flatMap hexPair) :
    isWordByte c = true ∧ c ≠ 95 := by
  obtain ⟨b, -, hc⟩ := List.mem_flatMap.mp h
  exact hexDigit_byte b c hc

theorem encoded_safe (hne : source ≠ []) : Safe (ascii "pyc_" ++ source.flatMap hexPair) := by
  have hstart : ∀ name ∈ cppKeywords ++ systemVerilogKeywords, ¬ ascii "pyc_" <+: name := by
    decide +kernel
  have hkeyword : ascii "pyc_" ++ source.flatMap hexPair ∉ cppKeywords ++ systemVerilogKeywords :=
    fun h => hstart _ h (List.prefix_append ..)
  rw [List.mem_append, not_or] at hkeyword
  have hnone : (source.flatMap hexPair).count 95 = 0 :=
    List.count_eq_zero.mpr fun h => (encoded_byte h).2 rfl
  refine ⟨⟨112, _, rfl, by decide⟩, fun c hc => ?_, fun h => ?_, fun h => ?_, hkeyword.1,
    hkeyword.2⟩
  · rcases List.mem_append.mp hc with hc | hc
    · have hword : ∀ c ∈ ascii "pyc_", isWordByte c = true := by decide +kernel
      exact hword c hc
    · exact (encoded_byte hc).1
  · -- the only underscore ends the prefix
    have hcount := h.sublist.count_le 95
    rw [List.count_append, hnone, show (ascii "pyc_").count 95 = 1 by decide +kernel] at hcount
    exact absurd hcount (by decide)
  · obtain ⟨b, rest, rfl⟩ := List.exists_cons_of_ne_nil hne
    rw [List.getLast?_append_of_ne_nil _ (by simp [hexPair])] at h
    exact (encoded_byte (List.mem_of_getLast? h)).2 rfl

/-! ## The result -/

theorem legalize_cases (hne : source ≠ []) :
    (simple source = true ∧ source ∉ cppWords ∧ source ∉ reserved ∧
      legalizeIdentifier source = .ok source) ∨
    legalizeIdentifier source = .ok (ascii "pyc_" ++ source.flatMap hexPair) := by
  rw [legalizeIdentifier, if_neg hne]
  split_ifs with h
  · exact .inl ⟨h.1, h.2.1, h.2.2, rfl⟩
  · exact .inr rfl

theorem simple_not_encoded (h : simple source = true) (hpyc : ascii "pyc_" <+: source) : False := by
  simp only [simple, Bool.and_eq_true, Bool.not_eq_true'] at h
  rw [List.isPrefixOf_iff_prefix.mpr hpyc] at h
  simp at h

theorem legalize_injective (hne : source ≠ []) (hother : other ≠ [])
    (h : legalizeIdentifier source = legalizeIdentifier other) : source = other := by
  rcases legalize_cases hne with ⟨hs, -, -, hkept⟩ | hcoded <;>
    rcases legalize_cases hother with ⟨ho, -, -, hkept'⟩ | hcoded'
  · exact Except.ok.inj (hkept.symm.trans (h.trans hkept'))
  · have heq := Except.ok.inj (hkept.symm.trans (h.trans hcoded'))
    exact (simple_not_encoded hs (heq ▸ List.prefix_append ..)).elim
  · have heq := Except.ok.inj (hkept'.symm.trans (h.symm.trans hcoded))
    exact (simple_not_encoded ho (heq ▸ List.prefix_append ..)).elim
  · have heq := Except.ok.inj (hcoded.symm.trans (h.trans hcoded'))
    exact flatMap_hexPair_injective (List.append_cancel_left heq)

/-- The result for a name is safe except for `inout`, and no other name has it. -/
theorem legalized_safe_iff (hne : source ≠ []) :
    ((∃ result, legalizeIdentifier source = .ok result ∧ Safe result) ↔
      source ≠ ascii "inout") ∧
    ∀ other, other ≠ [] → legalizeIdentifier source = legalizeIdentifier other →
      source = other := by
  refine ⟨⟨?_, fun hinout => ?_⟩, fun other hother => legalize_injective hne hother⟩
  · rintro ⟨result, hresult, hsafe⟩ rfl
    have hkept : legalizeIdentifier (ascii "inout") = .ok (ascii "inout") := by decide +kernel
    have hkeyword : ascii "inout" ∈ systemVerilogKeywords := by decide +kernel
    obtain rfl := Except.ok.inj (hkept.symm.trans hresult)
    exact hsafe.notSystemVerilog hkeyword
  · rcases legalize_cases hne with ⟨hs, hcpp, hreserved, hkept⟩ | hcoded
    · exact ⟨source, hkept, kept_safe hne hs hcpp hreserved hinout⟩
    · exact ⟨_, hcoded, encoded_safe hne⟩

/-- The keyword `module` is encoded. -/
theorem legalized_safe_module :
    ascii "module" ≠ [] ∧
      ∃ result, legalizeIdentifier (ascii "module") = .ok result ∧ Safe result :=
  have hne : ascii "module" ≠ [] := by decide
  ⟨hne, (legalized_safe_iff hne).1.mpr (by decide +kernel)⟩

/-- The name `inout` is returned as it is. -/
theorem inout_kept :
    legalizeIdentifier (ascii "inout") = .ok (ascii "inout") ∧
      ascii "inout" ∈ systemVerilogKeywords := by
  decide +kernel

end PyCircuit.FinalCppNames
