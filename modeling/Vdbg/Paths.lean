import Vdbg.Backtrace
import Vdbg.Sharing

/-!
# Paths

The path a frame of a backtrace is shown with. `print_frame` drops what the path of the source and
the compilation directory have in common, character by character. That is a path relative to the
directory where the source lies under it (`Under`). Elsewhere it is the tail of a path, and where
the two are the same the scan runs past their ends.
-/

namespace Vdbg

open FaultRun

/-! ## Paths as texts -/

section Texts

variable {as bs dir path r : List Char}

/-- A path from the root. -/
def IsAbsolute (path : List Char) : Prop := path.head? = some '/'

instance : DecidablePred IsAbsolute := fun _ => by unfold IsAbsolute; infer_instance

/-- The file `r` of a directory. -/
def joinPath (dir r : List Char) : List Char :=
  if dir.getLast? = some '/' then dir ++ r else dir ++ '/' :: r

/-- `path` is that of a file below `dir`. -/
def Under (dir path : List Char) : Prop := ∃ r, ¬IsAbsolute r ∧ joinPath dir r = path

/-- What is to be shown for `path`: a path relative to the directory it lies under, or itself. -/
def Denotes (dir path shown : List Char) : Prop :=
  (¬IsAbsolute shown ∧ joinPath dir shown = path) ∨ (¬Under dir path ∧ shown = path)

theorem skipCommon_append (as bs cs : List Char) :
    skipCommon (cs ++ as) (cs ++ bs) = skipCommon as bs := by
  induction cs with
  | nil => rfl
  | cons c cs ih => exact (if_pos rfl).trans ih

theorem skipCommon_self : skipCommon as as = none := by
  have happend := skipCommon_append [] [] as
  rw [List.append_nil] at happend
  exact happend

/-- The scan over the whole of the directory. -/
theorem skipCommon_dir (h : r ≠ []) : skipCommon (dir ++ r) dir = some r := by
  have happend := skipCommon_append r [] dir
  rw [List.append_nil] at happend
  rw [happend]
  cases r with
  | nil => exact absurd rfl h
  | cons c cs => rfl

theorem skipCommon_length (h : skipCommon as bs = some r) : r.length ≤ as.length := by
  induction as generalizing bs with
  | nil =>
    cases bs with
    | nil => cases h
    | cons b bs => cases h; exact le_rfl
  | cons a as ih =>
    cases bs with
    | nil => cases h; exact le_rfl
    | cons b bs =>
      rw [skipCommon] at h
      split_ifs at h with heq
      · exact (ih h).trans (Nat.le_succ _)
      · cases h
        exact le_rfl

/-- The part of `print_frame` after its scan. -/
def dropSlash : List Char → List Char
  | '/' :: rest => rest
  | rest => rest

theorem length_dropSlash_le : (dropSlash r).length ≤ r.length := by
  unfold dropSlash
  split
  · exact Nat.le_succ _
  · exact le_rfl

theorem dropSlash_of_not_isAbsolute (h : ¬IsAbsolute r) : dropSlash r = r := by
  unfold dropSlash
  split
  · exact absurd rfl h
  · rfl

/-- At least the first character of two absolute paths is dropped. -/
theorem skipCommon_lt (hpath : IsAbsolute path) (hdir : IsAbsolute dir)
    (h : skipCommon path dir = some r) : (dropSlash r).length < path.length := by
  cases path with
  | nil => cases hpath
  | cons a as =>
    cases dir with
    | nil => cases hdir
    | cons b bs =>
      cases hpath
      cases hdir
      rw [skipCommon, if_pos rfl] at h
      exact Nat.lt_succ_of_le (length_dropSlash_le.trans (skipCommon_length h))

/-- Under its directory a path loses the directory and the slash. -/
theorem skipCommon_joinPath (hr : ¬IsAbsolute r) (hne : joinPath dir r ≠ dir) :
    ∃ rest, skipCommon (joinPath dir r) dir = some rest ∧ dropSlash rest = r := by
  unfold joinPath at hne ⊢
  split_ifs at hne ⊢ with hslash
  · have hcons : r ≠ [] := by
      rintro rfl
      exact hne (List.append_nil dir)
    exact ⟨r, skipCommon_dir hcons, dropSlash_of_not_isAbsolute hr⟩
  · exact ⟨'/' :: r, skipCommon_dir (List.cons_ne_nil _ _), rfl⟩

end Texts

/-! ## The path of a frame -/

section Frame

variable {k : Kernel} {syms : Symbols} {w w' : World} {pc pc' load : Addr} {isFirst : Bool}
  {die : FuncDie} {f file dir : String} {src : SrcLine}

theorem relativePath_eq (w : World) (file dir : String) : relativePath w file (some dir) =
    match skipCommon file.toList dir.toList with
    | none => .error (.outOfBounds, w)
    | some rest => .ok (String.ofList (dropSlash rest)) := by
  unfold relativePath
  dsimp only
  split
  · rename_i hskip
    rw [hskip]
  · rename_i rest hskip
    rw [hskip]
    rfl
  · rename_i rest hslash hskip
    have hrel : ¬IsAbsolute rest := fun habs => by
      obtain ⟨r, rfl⟩ := List.head?_eq_some_iff.mp habs
      exact hslash r rfl
    rw [hskip]
    dsimp only
    rw [dropSlash_of_not_isAbsolute hrel]

/-- The path that is shown is the one to be shown exactly where the source lies under the
directory and is not the directory itself. -/
theorem relativePath_denotes_iff (hfile : IsAbsolute file.toList) (hdir : IsAbsolute dir.toList) :
    (∃ path, relativePath w file (some dir) = .ok path ∧
        Denotes dir.toList file.toList path.toList) ↔
      Under dir.toList file.toList ∧ file ≠ dir := by
  rw [relativePath_eq]
  constructor
  · rintro ⟨path, hpath, hdenotes⟩
    cases hskip : skipCommon file.toList dir.toList with
    | none =>
      rw [hskip] at hpath
      cases hpath
    | some rest =>
      have hlt := skipCommon_lt hfile hdir hskip
      rw [hskip] at hpath
      cases hpath
      rw [String.toList_ofList] at hdenotes
      refine ⟨?_, ?_⟩
      · rcases hdenotes with ⟨hrel, hjoin⟩ | ⟨-, hsame⟩
        · exact ⟨_, hrel, hjoin⟩
        · rw [hsame] at hlt
          exact absurd hlt (lt_irrefl _)
      · rintro rfl
        rw [skipCommon_self] at hskip
        cases hskip
  · rintro ⟨⟨r, hr, hjoin⟩, hne⟩
    have hne' : joinPath dir.toList r ≠ dir.toList := fun h =>
      hne (String.toList_injective (hjoin.symm.trans h))
    obtain ⟨rest, hskip, hdrop⟩ := skipCommon_joinPath hr hne'
    rw [hjoin] at hskip
    rw [hskip]
    refine ⟨_, rfl, .inl ?_⟩
    rw [String.toList_ofList, hdrop]
    exact ⟨hr, hjoin⟩

variable (k syms) in
/-- A frame with a function and a line is said with the path that `relativePath` gives. -/
theorem printFrame_eq (hdie : getFuncDieFromPc w pc load = .ok (some die))
    (hname : die.name = some f)
    (henter : (if isFirst then enterFrame k syms w die pc load else .ok (pc, w)) = .ok (pc', w'))
    (hline : getLineFromPc w' pc' = .ok (some (file, src))) :
    printFrame k syms w pc load isFirst = do
      let path ← relativePath w' file src.compDir
      return (some f, (if isFirst then printSrcFileOutdatedWarning w' src.outdated else w').say
        (.frame pc' f path src.line)) := by
  unfold printFrame
  rw [hdie, ok_bind, Option.bind_some, hname, Option.map_some]
  cases isFirst with
  | false =>
    cases henter
    simp only [Bool.false_eq_true, if_false, ok_bind, hline]
  | true =>
    rw [if_pos rfl] at henter
    simp only [if_true, henter, ok_bind, hline]

theorem World.say_right_inj {r r' : Report} (h : w.say r = w'.say r') : r = r' := by
  have hout : w.out ++ [r] = w'.out ++ [r'] := congrArg World.out h
  exact List.singleton_inj.mp (List.append_inj_right' hout rfl)

variable (k syms) in
/-- The path that `print_frame` prints, for a frame that has a function and a line: a path relative
to the directory, or the one of the source where it does not lie under it, exactly where the source
does lie under the directory and is not the directory itself. -/
theorem printFrame_denotes_iff (hdie : getFuncDieFromPc w pc load = .ok (some die))
    (hname : die.name = some f)
    (henter : (if isFirst then enterFrame k syms w die pc load else .ok (pc, w)) = .ok (pc', w'))
    (hline : getLineFromPc w' pc' = .ok (some (file, src))) (hcomp : src.compDir = some dir)
    (hfile : IsAbsolute file.toList) (hdir : IsAbsolute dir.toList) :
    (∃ (path : String) (w₁ : World), printFrame k syms w pc load isFirst =
          .ok (some f, w₁.say (.frame pc' f path src.line)) ∧
        Denotes dir.toList file.toList path.toList) ↔
      Under dir.toList file.toList ∧ file ≠ dir := by
  rw [printFrame_eq k syms hdie hname henter hline, hcomp,
    ← relativePath_denotes_iff (w := w') hfile hdir]
  constructor
  · rintro ⟨path, w₁, hprint, hdenotes⟩
    obtain ⟨path', hpath', hok⟩ := bind_eq_ok.mp hprint
    have hsame := World.say_right_inj (congrArg Prod.snd (Except.ok.inj hok))
    cases hsame
    exact ⟨_, hpath', hdenotes⟩
  · rintro ⟨path, hpath, hdenotes⟩
    exact ⟨path, _, by rw [hpath]; rfl, hdenotes⟩

/-! ## A frame of a project -/

/-- One line of `main` for every pc. -/
def lineDwfl (file dir : String) : Dwfl where
  addrmodule _ := true
  getsrc _ := some ⟨some file, 1, some dir, false⟩
  addrdie _ := some ⟨none, [⟨some "main", some 0, some 0x1000⟩]⟩
  junkRange _ := (0, 0)

/-- A tracee stopped there. -/
def lineWorld (file dir : String) : World :=
  .stoppedAt (fun _ => 0) (fun _ => 0) (lineDwfl file dir)

theorem lineWorld_die : getFuncDieFromPc (lineWorld file dir) 0 0 =
    .ok (some ⟨some "main", some 0, some 0x1000⟩) :=
  rfl

/-- A frame in the file of a project shows its path in it. -/
theorem printFrame_in_project :
    ∃ (path : String) (w₁ : World), printFrame .idle .stripped (lineWorld "/p/a.c" "/p") 0 0 false =
        .ok (some "main", w₁.say (.frame 0 "main" path 1)) ∧
      Denotes "/p".toList "/p/a.c".toList path.toList :=
  have hline : getLineFromPc (lineWorld "/p/a.c" "/p") 0 =
      .ok (some ("/p/a.c", ⟨some "/p/a.c", 1, some "/p", false⟩)) := rfl
  (printFrame_denotes_iff .idle .stripped lineWorld_die rfl (if_neg Bool.false_ne_true) hline rfl
    rfl rfl).mpr ⟨⟨"a.c".toList, by decide, by decide⟩, by decide⟩

/-- A frame in a file outside of the directory shows the tail of its path. -/
theorem printFrame_sibling :
    ∃ w₁ : World, printFrame .idle .stripped (lineWorld "/proj2/a.c" "/proj") 0 0 false =
        .ok (some "main", w₁.say (.frame 0 "main" "2/a.c" 1)) ∧
      ¬Denotes "/proj".toList "/proj2/a.c".toList "2/a.c".toList := by
  have hline : getLineFromPc (lineWorld "/proj2/a.c" "/proj") 0 =
      .ok (some ("/proj2/a.c", ⟨some "/proj2/a.c", 1, some "/proj", false⟩)) := rfl
  have hprint := printFrame_eq .idle .stripped lineWorld_die rfl (if_neg Bool.false_ne_true) hline
  have hpath : relativePath (lineWorld "/proj2/a.c" "/proj") "/proj2/a.c" (some "/proj") =
      .ok "2/a.c" := by
    rw [relativePath_eq]
    rfl
  refine ⟨_, hprint.trans (by rw [hpath]; rfl), ?_⟩
  rintro (⟨-, hjoin⟩ | ⟨-, hsame⟩)
  · exact absurd hjoin (by decide)
  · exact absurd hsame (by decide)

end Frame

end Vdbg
