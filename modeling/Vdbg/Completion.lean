import Vdbg.Text
import Vdbg.Selection
import Vdbg.Resolution

/-!
# Completing a breakpoint

`bp_generator` offers the id of a breakpoint and a text of its target, and `parse_arg_bp` finds out
what kind of text it was given. The id is always read back; the target is not when it is the address
0, a file with a colon, one that begins with `0x`, a text cut at 255 bytes, or a name that begins
with the name of another breakpoint (`candidates_resolve_iff`).
-/

namespace Vdbg

open FaultRun

variable {syms : Symbols} {w : World} {b : BpPtr} {bp bp' : Breakpoint} {key : BpKey}
  {arg : List Char}

/-! ## The candidates -/

/-- The kind and the target of a breakpoint. -/
def Breakpoint.toKey (bp : Breakpoint) : BpKey :=
  match bp.kind with
  | .addr => .addr bp.instrAddr
  | .symbol name => .symbol name
  | .lineno file line => .lineno file line

/-- A file and a line in a buffer of 256 bytes. -/
def fileLine (file : String) (line : ℤ) : List Char := (file.toList ++ ':' :: fmtInt line).take 255

/-- The target of a breakpoint as `bp_generator` prints it. -/
def targetText (bp : Breakpoint) : List Char :=
  match bp.kind with
  | .addr => fmtAltHex bp.instrAddr
  | .symbol name => name.toList
  | .lineno file line => fileLine file line

/-- The candidates for a breakpoint. -/
def candidates (bp : Breakpoint) : List (List Char) := [fmtUnsigned bp.id, targetText bp]

/-- `bp_generator`: the candidates for the pending breakpoints that begin with the text. -/
def bpGenerator (w : World) (text : List Char) : List (List Char) :=
  ((w.pendingBreakpoints.filterMap w.bps).flatMap candidates).filter text.isPrefixOf

/-- `parse_arg_bp` finds a breakpoint of the kind and with the target of the key. -/
def ResolvesTo (syms : Symbols) (w : World) (arg : List Char) (key : BpKey) : Prop :=
  ∃ b bp, parseArgBp syms w (parseBpArg arg) = .ok (some b) ∧ w.bps b = some bp ∧ bp.toKey = key

/-- The kinds of breakpoints an argument of `break` sets. The file is one of the executable. -/
def BreakArg.Gives : BreakArg → BpKind → Prop
  | .addr _, .addr => True
  | .symbol name, .symbol name' => name' = name
  | .line _ n, .lineno _ n' => n' = n
  | _, _ => False

/-- A breakpoint that `break` can set. -/
def Breakpoint.FromBreak (bp : Breakpoint) : Prop := ∃ arg, (parseBreakArg arg).Gives bp.kind

/-- The text is a number that is the id of a breakpoint with that kind and target. -/
def World.Numbers (w : World) (text : List Char) (key : BpKey) : Prop :=
  isNumber text = true ∧ ∃ b bp, w.bps b = some bp ∧ bp.id = strtoul text 10 ∧ bp.toKey = key

/-- The text of a file and a line can be split again: it fits the buffer, its first colon is the one
that was printed, and it does not look like an address. -/
def Splits (file : String) (line : ℤ) : Prop :=
  ':' ∉ file.toList ∧ isHex file.toList = false ∧ line ≠ 0 ∧
    (file.toList ++ ':' :: fmtInt line).length ≤ 255

/-- The target of the breakpoint is read as it was printed, and the breakpoints are kept apart. A
file name that fills the buffer with digits may happen to be an id. -/
def World.Recovers (w : World) (bp : Breakpoint) : Prop :=
  match bp.kind with
  | .addr => bp.instrAddr ≠ 0 ∧ bp.instrAddr ≠ BitVec.allOnes 64
  | .symbol name => w.Distinguished (.symbol name)
  | .lineno file line =>
    Splits file line ∧ w.Distinguished (.lineno file line) ∨
    255 ≤ file.toList.length ∧ w.Numbers (file.toList.take 255) (.lineno file line)

/-! ## What the search finds -/

theorem selects_iff : key.selects bp = true ↔ bp.toKey = key := by
  unfold BpKey.selects Breakpoint.toKey
  cases key with
  | addr a => cases bp.kind <;> simp [eq_comm]
  | symbol name => cases bp.kind <;> simp [eq_comm]
  | lineno file line =>
    cases bp.kind with
    | addr => simp
    | symbol name => simp
    | lineno file' line' =>
      simp only [Bool.and_eq_true, decide_eq_true_eq, BpKey.lineno.injEq]
      exact ⟨fun h => ⟨h.2.symm, h.1.symm⟩, fun h => ⟨h.2.symm, h.1.symm⟩⟩

theorem found_matches (hlive : ∀ b ∈ w.pendingBreakpoints, (w.bps b).isSome)
    (h : findBreakpointFromPending w key = .ok (some b)) :
    key ≠ .addr 0 ∧ w.pendingBreakpoints.find? (w.passes key bpMatches) = some b := by
  unfold findBreakpointFromPending at h
  split_ifs at h with hkey
  · cases h
  · rw [findBreakpoint_eq hlive] at h
    exact ⟨hkey, Except.ok.inj h⟩

/-- Among breakpoints one of which has the key, the search finds one that has it exactly when the
names are kept apart. -/
theorem found_key_iff (h : Registry w) (hb : w.bps b = some bp) (hkey : bp.toKey = key) :
    (∃ b bp, findBreakpointFromPending w key = .ok (some b) ∧ w.bps b = some bp ∧ bp.toKey = key) ↔
      w.Distinguished key := by
  have hlive : ∀ b ∈ w.pendingBreakpoints, (w.bps b).isSome := fun b hb => (h.live b).mp hb
  rw [← findBreakpointFromPending_exact_iff hlive]
  constructor
  · rintro ⟨b', bp', hfound, hb', hkey'⟩
    rw [hfound]
    obtain ⟨-, hfind⟩ := found_matches hlive hfound
    obtain ⟨-, pre, post, hlist, hpre⟩ := List.find?_eq_some_iff_append.mp hfind
    -- what comes before fails the wider test
    refine congrArg _ (List.find?_eq_some_iff_append.mpr
      ⟨?_, pre, post, hlist, fun q hq => ?_⟩).symm
    · exact (Option.any_eq_true _ _).mpr ⟨bp', hb', selects_iff.mpr hkey'⟩
    · have hno := hpre q hq
      rw [Bool.not_eq_true'] at hno ⊢
      exact Bool.eq_false_iff.mpr fun hyes =>
        Bool.false_ne_true (hno.symm.trans (passes_matches_of_selects hyes))
  · intro hfound
    have hpass : w.passes key BpKey.selects b = true :=
      (Option.any_eq_true _ _).mpr ⟨bp, hb, selects_iff.mpr hkey⟩
    obtain ⟨b', hb'⟩ := Option.isSome_iff_exists.mp
      (List.find?_isSome.mpr ⟨b, (h.live b).mpr (by rw [hb]; rfl), hpass⟩ :
        (w.firstSelected key).isSome)
    obtain ⟨-, bp', hbp', hsel⟩ := firstSelected_selects hb'
    exact ⟨b', bp', hfound.trans (congrArg _ hb'), hbp', selects_iff.mp hsel⟩

/-- The kind of what the search finds is that of the key, and a line is the same. -/
theorem found_kind (h : Registry w) (hfound : findBreakpointFromPending w key = .ok (some b))
    (hb : w.bps b = some bp) : bpMatches key bp = true := by
  obtain ⟨-, hfind⟩ := found_matches (fun b hb => (h.live b).mp hb) hfound
  obtain ⟨bp', hb', hmatch⟩ := (Option.any_eq_true _ _).mp
    (List.find?_some (p := w.passes key bpMatches) hfind)
  rwa [Option.some.inj (hb.symm.trans hb')]

theorem toKey_of_addr {a : Addr} (h : bpMatches (.addr a) bp = true) :
    bp.toKey = .addr bp.instrAddr := by
  unfold bpMatches at h
  unfold Breakpoint.toKey
  cases hk : bp.kind with
  | addr => rfl
  | symbol name => simp [hk] at h
  | lineno file line => simp [hk] at h

theorem toKey_of_symbol {name : String} (h : bpMatches (.symbol name) bp = true) :
    ∃ name', bp.toKey = .symbol name' := by
  unfold bpMatches at h
  unfold Breakpoint.toKey
  cases hk : bp.kind with
  | addr => simp [hk] at h
  | symbol name' => exact ⟨name', rfl⟩
  | lineno file line => simp [hk] at h

theorem toKey_of_lineno {file : String} {line : ℤ} (h : bpMatches (.lineno file line) bp = true) :
    ∃ file', bp.toKey = .lineno file' line ∧ file'.toList <+: file.toList := by
  unfold bpMatches at h
  unfold Breakpoint.toKey
  cases hk : bp.kind with
  | addr => simp [hk] at h
  | symbol name => simp [hk] at h
  | lineno file' line' =>
    simp only [hk, Bool.and_eq_true, decide_eq_true_eq, List.isPrefixOf_iff_prefix] at h
    exact ⟨file', by rw [h.1], h.2⟩

/-! ## What an argument is read as -/

theorem parseBpArg_number (hn : isNumber arg = true) : parseBpArg arg = .id (strtoul arg 10) :=
  if_pos hn

theorem parseBpArg_hex (hn : isNumber arg = false) (hh : isHex arg = true) :
    parseBpArg arg = .key (.addr (strtoul arg 16)) := by
  unfold parseBpArg
  rw [hn, hh]
  rfl

theorem parseBpArg_colon {file lineno : List Char} (hn : isNumber arg = false)
    (hh : isHex arg = false) (hs : strchr ':' arg = some (file, lineno)) :
    parseBpArg arg = .key (.lineno (.ofList file) (atoi lineno)) := by
  unfold parseBpArg
  rw [hn, hh, hs]
  rfl

theorem parseBpArg_name (hn : isNumber arg = false) (hh : isHex arg = false)
    (hs : strchr ':' arg = none) : parseBpArg arg = .key (.symbol (.ofList arg)) := by
  unfold parseBpArg
  rw [hn, hh, hs]
  rfl

theorem not_isNumber {c : Char} (hc : c ∈ arg) (hdigit : c.isDigit = false) :
    isNumber arg = false := by
  by_contra hyes
  have hall := List.all_eq_true.mp (by simpa using hyes : isNumber arg = true) c hc
  rw [hdigit] at hall
  cases hall

/-- A number is an id. -/
theorem resolvesTo_number_iff (h : Registry w) (hn : isNumber arg = true) :
    ResolvesTo syms w arg key ↔ w.Numbers arg key := by
  unfold ResolvesTo World.Numbers
  rw [parseBpArg_number hn, and_iff_right hn]
  refine exists_congr fun b => exists_congr fun bp => ?_
  have hlookup : parseArgBp syms w (.id (strtoul arg 10)) = .ok (some b) ↔
      ∃ bp, w.bps b = some bp ∧ bp.id = strtoul arg 10 :=
    ⟨fun hok => (h.lookup _ b).mp (Except.ok.inj hok), fun hb => congrArg _ ((h.lookup _ b).mpr hb)⟩
  rw [hlookup]
  constructor
  · rintro ⟨⟨bp', hb', hid⟩, hb, hkey⟩
    rw [Option.some.inj (hb'.symm.trans hb)] at hid
    exact ⟨hb, hid, hkey⟩
  · rintro ⟨hb, hid, hkey⟩
    exact ⟨⟨bp, hb, hid⟩, hb, hkey⟩

theorem resolvesTo_id (h : Registry w) (hb : w.bps b = some bp) :
    ResolvesTo syms w (fmtUnsigned bp.id) bp.toKey :=
  (resolvesTo_number_iff h isNumber_fmtUnsigned).mpr
    ⟨isNumber_fmtUnsigned, b, bp, hb, strtoul_fmtUnsigned.symm, rfl⟩

/-- An argument that is looked for as it was printed. -/
theorem resolvesTo_key_iff (h : Registry w) (hb : w.bps b = some bp)
    (hparse : parseBpArg arg = .key bp.toKey)
    (hasked : parseArgBp syms w (.key bp.toKey) = findBreakpointFromPending w bp.toKey) :
    ResolvesTo syms w arg bp.toKey ↔ w.Distinguished bp.toKey := by
  rw [← found_key_iff h hb rfl, ← hasked, ← hparse]
  rfl

/-- An argument that is looked for as something of another kind. -/
theorem not_resolvesTo (h : Registry w) {key' : BpKey} (hparse : parseBpArg arg = .key key')
    (hother : ∀ bp, bpMatches key' bp = true → bp.toKey ≠ key) : ¬ResolvesTo syms w arg key := by
  rintro ⟨b, bp, hfound, hb, hkey⟩
  rw [hparse] at hfound
  exact hother bp (found_kind h (parseArgBp_key hfound) hb) hkey

/-- An address is found, but 0 is printed without `0x`, and `ULONG_MAX` is refused. -/
theorem resolvesTo_addr_iff (h : Registry w) (hb : w.bps b = some bp) (hkind : bp.kind = .addr) :
    ResolvesTo syms w (fmtAltHex bp.instrAddr) bp.toKey ↔
      bp.instrAddr ≠ 0 ∧ bp.instrAddr ≠ BitVec.allOnes 64 := by
  have hkey : bp.toKey = .addr bp.instrAddr := by rw [Breakpoint.toKey, hkind]
  unfold fmtAltHex
  split_ifs with h0
  · rw [resolvesTo_number_iff h rfl]
    refine iff_of_false ?_ fun hne => hne.1 h0
    rintro ⟨-, b', bp', hb', hid, -⟩
    exact (h.counted b' bp' hb').1 hid
  · have hparse : parseBpArg ('0' :: 'x' :: fmtHex bp.instrAddr) = .key bp.toKey := by
      rw [parseBpArg_hex (not_isNumber (List.mem_cons_of_mem _ List.mem_cons_self) rfl) rfl, hkey]
      exact congrArg (fun a => BpArg.key (.addr a)) (strtoul_hex 0)
    by_cases hmax : bp.instrAddr = BitVec.allOnes 64
    · refine iff_of_false ?_ fun hne => hne.2 hmax
      rintro ⟨b', bp', hfound, -⟩
      rw [hparse, hkey, parseArgBp, if_pos (.inr hmax)] at hfound
      cases hfound
    · have hasked : parseArgBp syms w (.key bp.toKey) = findBreakpointFromPending w bp.toKey := by
        rw [hkey, parseArgBp, if_neg (not_or.mpr ⟨h0, hmax⟩)]
      rw [resolvesTo_key_iff h hb hparse hasked, hkey]
      refine iff_of_true ⟨fun he => absurd (BpKey.addr.inj he) h0, ?_⟩ ⟨h0, hmax⟩
      intro pre q post bq hlist hq hout
      cases hout

/-- A name of `break` is taken for a name again. -/
theorem Breakpoint.FromBreak.name {name : String} (h : bp.FromBreak)
    (hkind : bp.kind = .symbol name) : parseBpArg name.toList = .key (.symbol name) := by
  obtain ⟨arg, hgives⟩ := h
  rw [hkind] at hgives
  unfold parseBreakArg at hgives
  split_ifs at hgives with hh hn
  · cases hgives
  · cases hgives
  · cases hs : strchr ':' arg with
    | some s =>
      rw [hs] at hgives
      cases hgives
    | none =>
      rw [hs] at hgives
      obtain rfl : name = .ofList arg := hgives
      rw [String.toList_ofList]
      exact parseBpArg_name (Bool.eq_false_iff.mpr hn) (Bool.eq_false_iff.mpr hh) hs

/-- A line of `break` is an `int`. -/
theorem Breakpoint.FromBreak.range {file : String} {line : ℤ} (h : bp.FromBreak)
    (hkind : bp.kind = .lineno file line) : -2 ^ 31 ≤ line ∧ line < 2 ^ 31 := by
  obtain ⟨arg, hgives⟩ := h
  rw [hkind] at hgives
  unfold parseBreakArg at hgives
  split_ifs at hgives with hh hn
  · cases hgives
  · obtain rfl : line = atoi arg := hgives
    exact atoi_range
  · cases hs : strchr ':' arg with
    | some s =>
      rw [hs] at hgives
      obtain rfl : line = atoi s.2 := hgives
      exact atoi_range
    | none =>
      rw [hs] at hgives
      cases hgives

/-- A name is found where the names are kept apart. -/
theorem resolvesTo_symbol_iff (h : Registry w) (hb : w.bps b = some bp) {name : String}
    (hkind : bp.kind = .symbol name) (hfrom : bp.FromBreak) :
    ResolvesTo syms w name.toList bp.toKey ↔ w.Distinguished (.symbol name) := by
  have hkey : bp.toKey = .symbol name := by rw [Breakpoint.toKey, hkind]
  have hparse : parseBpArg name.toList = .key bp.toKey := hkey ▸ hfrom.name hkind
  rw [resolvesTo_key_iff h hb hparse (by rw [hkey]; rfl), hkey]

/-! ## A file and a line -/

section FileLine

variable {file : String} {line : ℤ} {pre post : List Char}

/-- Only the first two characters matter, and a colon is none of them. -/
theorem isHex_fileLine : isHex (fileLine file line) = isHex file.toList := by
  rw [Bool.eq_iff_iff, isHex_iff, isHex_iff]
  unfold fileLine
  rcases file.toList with - | ⟨c, - | ⟨c', cs⟩⟩
  · simp
  · simp
  · simp [List.cons_prefix_cons]

/-- Where the colon is cut off, the file fills the buffer. -/
theorem fileLine_of_no_colon (h : ':' ∉ fileLine file line) :
    fileLine file line = file.toList.take 255 ∧ 255 ≤ file.toList.length := by
  unfold fileLine at h ⊢
  rw [List.take_append] at h ⊢
  have hlen : 255 - file.toList.length = 0 := by
    by_contra hpos
    obtain ⟨n, hn⟩ := Nat.exists_eq_succ_of_ne_zero hpos
    rw [hn, List.take_succ_cons] at h
    exact h (List.mem_append_right _ List.mem_cons_self)
  rw [hlen, List.take_zero, List.append_nil]
  exact ⟨rfl, Nat.sub_eq_zero_iff_le.mp hlen⟩

theorem fileLine_of_full (h : 255 ≤ file.toList.length) :
    fileLine file line = file.toList.take 255 := by
  unfold fileLine
  rw [List.take_append_of_le_length h]

/-- A split behind the whole file is the split that was printed, up to the cut. -/
theorem fileLine_split (h : strchr ':' (fileLine file line) = some (pre, post))
    (hfile : file.toList <+: pre) :
    ':' ∉ file.toList ∧ post <+: fmtInt line ∧
      (post = fmtInt line → (file.toList ++ ':' :: fmtInt line).length ≤ 255) := by
  obtain ⟨htext, hcolon⟩ := strchr_eq_some h
  have hprefix : pre ++ ':' :: post <+: file.toList ++ ':' :: fmtInt line :=
    htext ▸ List.take_prefix 255 _
  obtain ⟨rest, rfl⟩ := hfile
  rw [List.append_assoc, List.prefix_append_right_inj] at hprefix
  obtain rfl : rest = [] := by
    rcases rest with - | ⟨c, rest⟩
    · rfl
    · obtain ⟨rfl, -⟩ := List.cons_prefix_cons.mp hprefix
      exact absurd (by simp) hcolon
  rw [List.append_nil] at hcolon htext
  refine ⟨hcolon, (List.cons_prefix_cons.mp hprefix).2, fun hpost => ?_⟩
  rw [← hpost, ← htext]
  exact List.length_take_le _ _

theorem fileLine_of_short (h : (file.toList ++ ':' :: fmtInt line).length ≤ 255) :
    fileLine file line = file.toList ++ ':' :: fmtInt line := List.take_of_length_le h

/-- A text that can be split is read as it was printed. -/
theorem Splits.parse (h : Splits file line) (hmin : -2 ^ 31 ≤ line) (hmax : line < 2 ^ 31) :
    parseBpArg (fileLine file line) = .key (.lineno file line) := by
  obtain ⟨hcolon, hhex, -, hshort⟩ := h
  have hsplit : strchr ':' (fileLine file line) = some (file.toList, fmtInt line) := by
    rw [fileLine_of_short hshort, strchr_append hcolon]
  have hmem : ':' ∈ fileLine file line := by
    rw [fileLine_of_short hshort]
    simp
  rw [parseBpArg_colon (not_isNumber hmem rfl) (isHex_fileLine.trans hhex) hsplit,
    atoi_fmtInt hmin hmax, String.ofList_toList]

/-- A number has no colon, so it is the front of the file alone. -/
theorem isNumber_fileLine_iff : isNumber (fileLine file line) = true ↔
    255 ≤ file.toList.length ∧ isNumber (file.toList.take 255) = true := by
  constructor
  · intro hn
    have hcolon : ':' ∉ fileLine file line := fun hmem =>
      Bool.false_ne_true ((not_isNumber hmem rfl).symm.trans hn)
    obtain ⟨htext, hfull⟩ := fileLine_of_no_colon hcolon
    exact ⟨hfull, htext ▸ hn⟩
  · rintro ⟨hfull, hn⟩
    rw [fileLine_of_full hfull]
    exact hn

/-- What is found for a text that is no number was read from a split of it. -/
theorem ResolvesTo.splits (h : Registry w) (hmin : -2 ^ 31 ≤ line) (hmax : line < 2 ^ 31)
    (hn : isNumber (fileLine file line) = false)
    (hresolves : ResolvesTo syms w (fileLine file line) (.lineno file line)) : Splits file line := by
  have hh : isHex (fileLine file line) = false := by
    by_contra hh
    refine not_resolvesTo h (parseBpArg_hex hn (by simpa using hh)) ?_ hresolves
    intro bq hmatch he
    rw [toKey_of_addr hmatch] at he
    cases he
  cases hs : strchr ':' (fileLine file line) with
  | none =>
    refine absurd hresolves (not_resolvesTo h (parseBpArg_name hn hh hs) ?_)
    intro bq hmatch he
    obtain ⟨name, hname⟩ := toKey_of_symbol hmatch
    rw [hname] at he
    cases he
  | some s =>
    obtain ⟨b, bp, hfound, hb, hkey⟩ := hresolves
    rw [parseBpArg_colon hn hh hs] at hfound
    obtain ⟨file', hfile', hprefix⟩ := toKey_of_lineno (found_kind h (parseArgBp_key hfound) hb)
    rw [hkey] at hfile'
    obtain ⟨rfl, hatoi⟩ := BpKey.lineno.inj hfile'
    rw [String.toList_ofList] at hprefix
    obtain ⟨hcolon, ⟨rest, hrest⟩, hshort⟩ := fileLine_split hs hprefix
    have hline : line ≠ 0 := by
      rintro rfl
      rw [parseArgBp, if_pos (.inr hatoi.symm)] at hfound
      cases hfound
    have hwhole : s.2 = fmtInt line := by
      by_contra hcut
      refine atoi_cut hmin hmax hline hrest.symm (fun hnil => hcut ?_) hatoi.symm
      rw [← hrest, hnil, List.append_nil]
    exact ⟨hcolon, isHex_fileLine.symm.trans hh, hline, hshort hwhole⟩

/-- A file and a line are found where they are read back and kept apart from others. -/
theorem resolvesTo_lineno_iff (hdwarf : syms.hasDwarf = true) (h : Registry w)
    (hb : w.bps b = some bp) (hkind : bp.kind = .lineno file line) (hmin : -2 ^ 31 ≤ line)
    (hmax : line < 2 ^ 31) :
    ResolvesTo syms w (fileLine file line) bp.toKey ↔
      Splits file line ∧ w.Distinguished (.lineno file line) ∨
      255 ≤ file.toList.length ∧ w.Numbers (file.toList.take 255) (.lineno file line) := by
  have hkey : bp.toKey = .lineno file line := by rw [Breakpoint.toKey, hkind]
  by_cases hn : isNumber (fileLine file line) = true
  · obtain ⟨hfull, -⟩ := isNumber_fileLine_iff.mp hn
    have hnot : ¬Splits file line := by
      rintro ⟨-, -, -, hshort⟩
      rw [List.length_append, List.length_cons] at hshort
      omega
    rw [resolvesTo_number_iff h hn, hkey, fileLine_of_full hfull, or_iff_right fun hs => hnot hs.1]
    exact (and_iff_right hfull).symm
  · have hnot : ¬(255 ≤ file.toList.length ∧
        w.Numbers (file.toList.take 255) (.lineno file line)) :=
      fun hnumbers => hn (isNumber_fileLine_iff.mpr ⟨hnumbers.1, hnumbers.2.1⟩)
    have hread : Splits file line → (ResolvesTo syms w (fileLine file line) bp.toKey ↔
        w.Distinguished (.lineno file line)) := by
      intro hsplits
      have hasked : parseArgBp syms w (.key bp.toKey) = findBreakpointFromPending w bp.toKey := by
        rw [hkey, parseArgBp, if_neg (by simp [hdwarf, hsplits.2.2.1])]
      rw [resolvesTo_key_iff h hb (hkey ▸ hsplits.parse hmin hmax) hasked, hkey]
    rw [or_iff_left hnot]
    constructor
    · intro hresolves
      have hsplits := ResolvesTo.splits h hmin hmax (Bool.eq_false_iff.mpr hn) (hkey ▸ hresolves)
      exact ⟨hsplits, (hread hsplits).mp hresolves⟩
    · exact fun hboth => (hread hboth.1).mpr hboth.2

end FileLine

/-- Every candidate of a breakpoint resolves to a breakpoint with its kind and target exactly when
its target is recovered. -/
theorem candidates_resolve_iff (hdwarf : syms.hasDwarf = true) (h : Registry w)
    (hb : w.bps b = some bp) (hfrom : bp.FromBreak) :
    (∀ t ∈ candidates bp, ResolvesTo syms w t bp.toKey) ↔ w.Recovers bp := by
  rw [candidates, List.forall_mem_cons, List.forall_mem_singleton,
    and_iff_right (resolvesTo_id h hb)]
  unfold targetText World.Recovers
  cases hkind : bp.kind with
  | addr =>
    exact resolvesTo_addr_iff h hb hkind
  | symbol name => exact resolvesTo_symbol_iff h hb hkind hfrom
  | lineno file line =>
    obtain ⟨hmin, hmax⟩ := hfrom.range hkind
    exact resolvesTo_lineno_iff hdwarf h hb hkind hmin hmax

/-! ## What `break` sets -/

section FromBreak

variable {k : Kernel} {w' : World} {kind : BpKind} {a : Addr}

/-- All breakpoints are ones that `break` can set. -/
def World.AllFromBreak (w : World) : Prop := ∀ b bp, w.bps b = some bp → bp.FromBreak

/-- A breakpoint gets a location and keeps the rest. -/
theorem addAndSetBp_bps (hb : w.bps b = some bp)
    (huser : ∀ p, mapLookup w.bpLocations (a + w.loadAddress) = some p →
      ∃ loc, w.locs p = some loc ∧ loc.isTemp = false ∧ b ∉ loc.bpList)
    (hok : addAndSetBpForRunningTracee k w a b = .ok w') :
    ∃ l, w'.bps = Function.update w.bps b (some { bp with location := l }) := by
  unfold addAndSetBpForRunningTracee at hok
  split_ifs at hok with hstate
  · cases hok
    exact ⟨bp.location, (Function.update_eq_self_iff.mpr hb.symm).symm⟩
  · dsimp only at hok
    rcases hp : mapLookup w.bpLocations (a + w.loadAddress) with - | p
    · rw [hp] at hok
      obtain ⟨r, hinit, hok⟩ := bind_eq_ok.mp hok
      obtain ⟨hpid, hne⟩ := locInit_asserts hinit
      rw [locInit_user_eq hpid hne hb] at hinit
      cases hinit
      cases hok
      exact ⟨_, rfl⟩
    · obtain ⟨loc, hloc, htemp, hnot⟩ := huser p hp
      rw [hp] at hok
      dsimp only at hok
      rw [locAppend_eq hb hloc htemp hnot] at hok
      cases hok
      exact ⟨_, rfl⟩

theorem setBreakpointOfKind_fromBreak (h : Ready w []) (hall : w.AllFromBreak)
    (hok : setBreakpointOfKind k w kind a = .ok w')
    (harg : ∃ text, (parseBreakArg text).Gives kind) : w'.AllFromBreak := by
  have hid := setBreakpointOfKind_counter hok
  rw [setBreakpointOfKind_eq hid] at hok
  obtain ⟨l, hbps⟩ := addAndSetBp_bps (w := w.adopt kind a) (Function.update_self ..)
    (fun p hp => h.unlisted hp) hok
  intro q bq hq
  rw [hbps, show (w.adopt kind a).bps = Function.update w.bps w.nextPtr
    (some ⟨w.globalIdCounter, kind, true, a, none⟩) from rfl, Function.update_idem,
    Function.update_apply] at hq
  split_ifs at hq with hnew
  · cases hq
    exact harg
  · exact hall q bq hq

/-- `break` with one argument sets breakpoints of the kinds that it gives. -/
theorem cmdBreak_one_fromBreak {text : List Char} (h : Ready w []) (hall : w.AllFromBreak)
    (hok : cmdBreak k syms w [parseBreakArg text] = .ok w') : w'.AllFromBreak := by
  have hgives : ∀ kind, (parseBreakArg text).Gives kind → ∃ text, (parseBreakArg text).Gives kind :=
    fun kind hkind => ⟨text, hkind⟩
  generalize parseBreakArg text = arg at hok hgives
  cases arg with
  | addr a =>
    obtain ⟨w₁, hset, hok⟩ := bind_eq_ok.mp hok
    rw [setBreakpointAtAddr_eq] at hset
    cases hok
    exact setBreakpointOfKind_fromBreak h hall hset (hgives .addr trivial)
  | line file n =>
    unfold cmdBreak at hok
    split_ifs at hok with hdwarf
    · obtain ⟨w₁, hset, hok⟩ := bind_eq_ok.mp hok
      cases hok
      rcases setBreakpointAtLineno_cases hset with ⟨-, rfl⟩ | ⟨name, a, -, hset⟩
      · exact hall
      · exact setBreakpointOfKind_fromBreak h hall hset (hgives (.lineno name n) rfl)
    · cases hok
      exact hall
  | symbol name =>
    obtain ⟨w₁, hset, hok⟩ := bind_eq_ok.mp hok
    cases hok
    exact (FaultRun.invariant (P := fun w => Ready w [] ∧ w.AllFromBreak)
      (fun w₁ f w₂ h₁ hone => ⟨(setBreakpointOfKind_edited h₁.1 hone).ready,
        setBreakpointOfKind_fromBreak h₁.1 h₁.2 hone (hgives (.symbol name) rfl)⟩)
      ⟨h, hall⟩ hset).2

/-- `break` with arguments that were typed keeps the breakpoints ones that it can set. -/
theorem cmdBreak_fromBreak {args : List (List Char)} (h : Ready w []) (hall : w.AllFromBreak)
    (hok : cmdBreak k syms w (args.map parseBreakArg) = .ok w') :
    Ready w' [] ∧ w'.AllFromBreak := by
  induction args generalizing w with
  | nil =>
    cases hok
    exact ⟨h, hall⟩
  | cons text args ih =>
    rw [List.map_cons] at hok
    rcases hstops : (parseBreakArg text).stops syms with - | -
    · obtain ⟨w₁, h1, hok⟩ := (cmdBreak_cons hstops).mp hok
      exact ih (cmdBreak_one_sets h h1).ready (cmdBreak_one_fromBreak h hall h1) hok
    · rw [cmdBreak_of_stops _ hstops] at hok
      cases hok
      exact ⟨h, hall⟩

end FromBreak

/-- An executable with debug symbols and the function `main`. -/
def debugSymbols : Symbols :=
  { Symbols.stripped with hasDwarf := true, functions := [("main", 0x401136)] }

/-- A breakpoint on `main` is completed by its id and its name. -/
theorem candidates_resolve_iff_main : ∃ w bp,
    session .idle debugSymbols dbgInit [.break [parseBreakArg "main".toList]] = .ok w ∧
    w.bps 0 = some bp ∧ candidates bp = ["1".toList, "main".toList] ∧
    ∀ t ∈ candidates bp, ResolvesTo debugSymbols w t bp.toKey := by
  obtain ⟨w, hw, hp⟩ := exists_of_any
    (p := fun w => w.pendingBreakpoints = [0] ∧
      w.bps 0 = some ⟨1, .symbol "main", true, 0x401136, none⟩)
    (x := session .idle debugSymbols dbgInit [.break [parseBreakArg "main".toList]])
    (by decide +kernel)
  obtain ⟨hlist, hbp⟩ := of_decide_eq_true hp
  have hbreak : cmdBreak .idle debugSymbols dbgInit (["main".toList].map parseBreakArg) = .ok w := by
    obtain ⟨w₁, hone, hrest⟩ := foldlM_cons_eq_ok.mp hw
    cases hrest
    exact hone
  obtain ⟨hready, hall⟩ := cmdBreak_fromBreak dbgInit_ready (fun _ _ hb => by cases hb) hbreak
  refine ⟨w, _, hw, hbp, by decide +kernel, (candidates_resolve_iff rfl hready.registry hbp
    (hall 0 _ hbp)).mpr ⟨nofun, ?_⟩⟩
  intro pre q post bq hl hq hout
  rw [hlist] at hl
  obtain rfl : q = 0 := by
    have hmem : q ∈ ([0] : List BpPtr) := hl ▸ List.mem_append_right _ List.mem_cons_self
    exact List.mem_singleton.mp hmem
  rw [hbp] at hq
  cases hq
  exact absurd rfl hout.1

/-- A breakpoint on the address 0 is offered as `0`, which is read as an id. -/
theorem completion_of_zero : ∃ w bp,
    session .idle debugSymbols dbgInit [.break [parseBreakArg "0x0".toList]] = .ok w ∧
    w.bps 0 = some bp ∧ bpGenerator w [] = ["1".toList, "0".toList] ∧
    candidates bp = ["1".toList, "0".toList] ∧
    parseArgBp debugSymbols w (parseBpArg "0".toList) = .ok none ∧
    ¬ResolvesTo debugSymbols w "0".toList bp.toKey := by
  obtain ⟨w, hw, hp⟩ := exists_of_any
    (p := fun w => (w.bps 0 = some ⟨1, .addr, true, 0, none⟩ ∧
        bpGenerator w [] = ["1".toList, "0".toList]) ∧
      mapLookup w.breakpoints 0 = none)
    (x := session .idle debugSymbols dbgInit [.break [parseBreakArg "0x0".toList]])
    (by decide +kernel)
  obtain ⟨⟨hbp, hoffered⟩, hnone⟩ := of_decide_eq_true hp
  have hparse : parseArgBp debugSymbols w (parseBpArg "0".toList) = .ok none :=
    congrArg Except.ok hnone
  refine ⟨w, _, hw, hbp, hoffered, by decide +kernel, hparse, ?_⟩
  rintro ⟨b, bp, hfound, -⟩
  rw [hparse] at hfound
  cases hfound

end Vdbg
