import Vdbg.Endings

/-!
# What can be typed

A command reads the terminal only for the answers to its questions, and depends on nothing that
comes after them (`handle_local`). So the commands of the options can be typed instead, each followed
by the answers it took, and the program comes to the same end (`options_typed`).
-/

namespace Vdbg

open FaultRun

namespace Program

section Locality

variable {k : Kernel} {syms : Symbols} {scripts : Scripts} {turns room : ℕ} {s : Shell}
  {line : List Char} {f g : Shell → Except Ended Shell}

/-- A call that does not read the terminal. -/
def Blind (f : Shell → Except Ended Shell) : Prop :=
  ∀ w, (∃ e, ∀ input, f ⟨w, input⟩ = .error e) ∨ ∃ w', ∀ input, f ⟨w, input⟩ = .ok ⟨w', input⟩

/-- A call takes inputs from the terminal, and does the same whatever comes after them. Where the
terminal had no more, these are ends of the file. -/
def Local (f : Shell → Except Ended Shell) (s : Shell) : Prop :=
  ∃ used, (∀ x ∈ used, x = none ∨ x ∈ s.input) ∧
    ((∃ e, f s = .error e ∧ ∀ rest, f ⟨s.world, used ++ rest⟩ = .error e) ∨
      ∃ s', f s = .ok s' ∧ (∀ x ∈ s'.input, x ∈ s.input) ∧
        ∀ rest, f ⟨s.world, used ++ rest⟩ = .ok ⟨s'.world, rest⟩)

theorem Blind.local (h : Blind f) (s : Shell) : Local f s := by
  refine ⟨[], nofun, ?_⟩
  rcases h s.world with ⟨e, he⟩ | ⟨w, hw⟩
  · exact .inl ⟨e, he s.input, he⟩
  · exact .inr ⟨⟨w, s.input⟩, hw s.input, fun _ => id, hw⟩

theorem Local.congr (h : Local g s) (hfg : ∀ input, f ⟨s.world, input⟩ = g ⟨s.world, input⟩) :
    Local f s := by
  have hs : f s = g s := hfg s.input
  obtain ⟨used, hused, h⟩ := h
  refine ⟨used, hused, ?_⟩
  simp only [hs, hfg]
  exact h

theorem Local.bind (hf : Local f s) (hg : ∀ s', f s = .ok s' → Local g s') :
    Local (fun s => f s >>= g) s := by
  obtain ⟨used, hused, ⟨e, he, herr⟩ | ⟨s₁, hok, hleft, hrest⟩⟩ := hf
  · refine ⟨used, hused, .inl ⟨e, ?_, fun rest => ?_⟩⟩
    · dsimp only
      rw [he]
      rfl
    · dsimp only
      rw [herr]
      rfl
  obtain ⟨used₁, hused₁, h₁⟩ := hg s₁ hok
  have happend : ∀ rest, (f ⟨s.world, (used ++ used₁) ++ rest⟩ >>= g) =
      g ⟨s₁.world, used₁ ++ rest⟩ := by
    intro rest
    rw [List.append_assoc, hrest, ok_bind]
  have hfirst : (f s >>= g) = g s₁ := by rw [hok, ok_bind]
  refine ⟨used ++ used₁, fun x hx => ?_, ?_⟩
  · rcases List.mem_append.mp hx with hx | hx
    · exact hused x hx
    · exact (hused₁ x hx).imp_right (hleft x)
  · simp only [happend, hfirst]
    rcases h₁ with ⟨e, he, herr⟩ | ⟨s', hok', hleft', hrest'⟩
    · exact .inl ⟨e, he, herr⟩
    · exact .inr ⟨s', hok', fun x hx => hleft x (hleft' x hx), hrest'⟩

theorem Local.foldlM {α : Type} {step : Shell → α → Except Ended Shell} {as : List α}
    (hstep : ∀ s a, Local (fun s => step s a) s) (s : Shell) :
    Local (fun s => as.foldlM step s) s := by
  induction as generalizing s with
  | nil => exact Blind.local (fun w => .inr ⟨w, fun _ => rfl⟩) s
  | cons a as ih =>
    simp only [List.foldlM_cons]
    exact (hstep s a).bind fun s' _ => ih s'

/-- One input is read, and then no more. -/
theorem local_read {g : Option (List Char) → Shell → Except Ended Shell} (hg : ∀ ans, Blind (g ans))
    (s : Shell) : Local (fun s => g s.readline.1 s.readline.2) s := by
  have hread : ∀ rest, (⟨s.world, s.readline.1 :: rest⟩ : Shell).readline =
      (s.readline.1, ⟨s.world, rest⟩) := fun _ => rfl
  have hworld := readline_world s
  have hinput := readline_input s
  refine ⟨[s.readline.1], ?_, ?_⟩
  · unfold Shell.readline
    split
    · simp
    · rename_i hs
      simp [hs]
  · simp only [List.singleton_append, hread]
    rcases hg s.readline.1 s.world with ⟨e, he⟩ | ⟨w, hw⟩
    · exact .inl ⟨e, by rw [← hworld] at he; exact he _, he⟩
    · exact .inr ⟨⟨w, s.readline.2.input⟩, by rw [← hworld] at hw; exact hw _,
        fun x hx => hinput.subset hx, hw⟩

theorem blind_ran {line : Option (List Char)} (x : World → Res World) :
    Blind fun s => s.ran line (x s.world) := by
  intro w
  rcases hx : x w with ⟨φ, w₁⟩ | w₁
  · refine .inl ⟨.crashed line (.fault φ) w₁, fun input => ?_⟩
    dsimp only
    rw [hx]
    rfl
  · refine .inr ⟨w₁, fun input => ?_⟩
    dsimp only
    rw [hx]
    rfl

theorem blind_handled (x : World → Handled) : Blind fun s => s.handled line (x s.world) := by
  intro w
  rcases hx : x w with m | ⟨w₁, values⟩
  · refine .inl ⟨.crashed line m w, fun input => ?_⟩
    dsimp only
    rw [hx]
    rfl
  · refine .inr ⟨w₁, fun input => ?_⟩
    dsimp only
    rw [hx]
    rfl

theorem blind_ok : Blind .ok := fun w => .inr ⟨w, fun _ => rfl⟩

/-- What `quit` does with an answer. -/
def quitAnswered (k : Kernel) (line : Option (List Char)) (ans : Option (List Char)) (s : Shell) :
    Except Ended Shell :=
  match dbgKillTracee k s.world (ans.all saysYes) with
  | .error (φ, w) => .error (.crashed line (.fault φ) w)
  | .ok (true, w) => .error (leave k line ⟨w, []⟩)
  | .ok (false, w) => .ok { s with world := w }

theorem quit_eq (line : Option (List Char)) (s : Shell) : quit k line s =
    if s.world.state = .active ∧ s.world.tracee.alive s.world.pid then
      quitAnswered k line s.readline.1 s.readline.2
    else quitAnswered k line none s := by
  unfold quit askToKill quitAnswered
  dsimp only
  split_ifs with hasks
  · rw [readline_world]
    rcases dbgKillTracee k s.world (s.readline.1.all saysYes) with ⟨φ, w⟩ | ⟨- | -, w⟩ <;> rfl
  · rcases dbgKillTracee k s.world ((none : Option (List Char)).all saysYes) with
      ⟨φ, w⟩ | ⟨- | -, w⟩ <;> rfl

theorem blind_quitAnswered (line : Option (List Char)) (ans : Option (List Char)) :
    Blind (quitAnswered k line ans) := by
  intro w
  unfold quitAnswered
  dsimp only
  rcases dbgKillTracee k w (ans.all saysYes) with ⟨φ, w₁⟩ | ⟨- | -, w₁⟩
  · exact .inl ⟨_, fun _ => rfl⟩
  · exact .inr ⟨w₁, fun _ => rfl⟩
  · exact .inl ⟨_, fun _ => rfl⟩

theorem quit_local (line : Option (List Char)) (s : Shell) : Local (quit k line) s := by
  by_cases hasks : s.world.state = .active ∧ s.world.tracee.alive s.world.pid = true
  · refine (local_read (blind_quitAnswered (k := k) line) s).congr fun input => ?_
    rw [quit_eq, if_pos hasks]
  · refine ((blind_quitAnswered (k := k) line none).local s).congr fun input => ?_
    rw [quit_eq, if_neg hasks]

theorem cmdRun_local (s : Shell) : Local (cmdRun k syms line) s := by
  by_cases hact : s.world.state = .active
  · refine (local_read (g := fun ans s => s.ran line (run k syms s.world (ans.any saysYes)))
      (fun ans => blind_ran fun w => run k syms w (ans.any saysYes)) s).congr fun input => ?_
    unfold cmdRun
    dsimp only
    rw [if_pos hact, readline_world]
  · have hblind : Blind fun s => s.ran line (run k syms s.world true) :=
      blind_ran fun w => run k syms w true
    refine (hblind.local s).congr fun input => ?_
    unfold cmdRun
    dsimp only
    rw [if_neg hact]

/-- `run` and `exit` read an answer, the other handlers nothing. -/
theorem perform_local (handler : Handler) (args : List (List Char)) (s : Shell) :
    Local (perform k syms turns handler args line) s := by
  have hran : ∀ x : World → Res World, Local (fun s => s.ran line (x s.world)) s :=
    fun x => (blind_ran x).local s
  cases handler with
  | cmdBreak => exact hran fun w => cmdBreak k syms w (args.tail.map parseBreakArg)
  | cmdDelete => exact hran fun w => cmdDelete k syms w (args.tail.map parseBpArg)
  | cmdEnable => exact hran fun w => cmdEnable k syms w (args.tail.map parseBpArg)
  | cmdDisable => exact hran fun w => cmdDisable k syms w (args.tail.map parseBpArg)
  | cmdList => exact hran fun w => do let _ ← printBreakpointList w; return w
  | cmdRestart => exact hran (restart k syms)
  | cmdContinue => exact hran (continueExecution k syms)
  | cmdStepi => exact hran (cmdStepi k syms)
  | cmdStep => exact hran (stepIn k syms turns)
  | cmdNext => exact hran (stepOver k syms)
  | cmdFinish => exact hran (stepOut k syms)
  | cmdBacktrace => exact hran (printBacktrace k syms turns)
  | cmdContext =>
    exact hran fun w => cmdContext k syms w (args[1]?.map fun context => .ofInt 32 (atoi context))
  | cmdRun => exact cmdRun_local s
  | cmdExit => exact quit_local line s
  | cmdReg => exact (blind_handled fun w => cmdReg k w args).local s
  | cmdMem => exact (blind_handled fun w => cmdMem k w args).local s
  | cmdArguments | cmdClear | cmdDisassemble | cmdFiles | cmdFunctions | cmdHelp | cmdHeader | cmdLs
  | cmdPlt | cmdSections | cmdSymbols | cmdVmmap | cmdSource => exact blind_ok.local s

theorem handleCommand_local {source : List Char → Shell → Except Ended Shell}
    (hsource : ∀ path s, Local (source path) s) (s : Shell) :
    Local (handleCommand k syms turns source line) s := by
  have hother : ∀ handler args, dispatch (s.world.state = .active) syms.hasDwarf line =
      .handled handler args → handler ≠ .cmdSource →
      Local (handleCommand k syms turns source line) s := by
    intro handler args hdispatch hne
    have hperform : Local (perform k syms turns handler args line) s := perform_local handler args s
    refine hperform.congr fun input => ?_
    unfold handleCommand
    dsimp only
    rw [hdispatch]
    cases handler <;> first | rfl | exact absurd rfl hne
  cases hdispatch : dispatch (s.world.state = .active) syms.hasDwarf line with
  | handled handler args =>
    by_cases hne : handler = .cmdSource
    · subst hne
      rcases hpath : args[1]? with - | path
      · have hblind : Blind fun s => .error (.crashed line .nullArgument s.world) :=
          fun w => .inl ⟨_, fun _ => rfl⟩
        refine (hblind.local s).congr fun input => ?_
        unfold handleCommand
        dsimp only
        rw [hdispatch]
        dsimp only
        rw [hpath]
      · refine (hsource path s).congr fun input => ?_
        unfold handleCommand
        dsimp only
        rw [hdispatch]
        dsimp only
        rw [hpath]
    · exact hother handler args hdispatch hne
  | _ =>
    refine (blind_ok.local s).congr fun input => ?_
    unfold handleCommand
    dsimp only
    rw [hdispatch]

theorem cmdSource_local (room : ℕ) (path : List Char) (s : Shell) :
    Local (cmdSource k syms scripts turns room path) s := by
  induction room generalizing path s with
  | zero => exact blind_ok.local s
  | succ room ih =>
    have hline : ∀ s line, Local
        (fun s => sourceLine k syms turns (cmdSource k syms scripts turns room) s line) s := by
      intro s line
      unfold sourceLine
      split_ifs
      · exact blind_ok.local s
      · exact blind_ok.local s
      · exact handleCommand_local ih s
    rcases hfind : scripts.find path with - | script
    · refine (blind_ok.local s).congr fun input => ?_
      unfold cmdSource
      rw [hfind]
    · have hlines : Local (fun s => (scriptLines (scripts.texts.get script)).foldlM
          (sourceLine k syms turns (cmdSource k syms scripts turns room)) s) s := .foldlM hline s
      refine hlines.congr fun input => ?_
      conv_lhs => unfold cmdSource
      rw [hfind]

theorem handle_local (s : Shell) : Local (handle k syms scripts turns room line) s :=
  handleCommand_local (cmdSource_local room) s

/-- An empty line is no command. -/
theorem handle_nil (s : Shell) : handle k syms scripts turns room [] s = .ok s := rfl

/-- `source` with a path is a script that `main` is given. -/
theorem handle_source {path : List Char} (hne : path ≠ []) (hspace : ' ' ∉ path) (s : Shell) :
    handle k syms scripts turns room ("source ".toList ++ path) s =
      cmdSource k syms scripts turns room path s := by
  have hfields : Fields.fields ' ' ("source ".toList ++ path) = ["source".toList, path] := by
    show Fields.fields ' ' ("source".toList ++ ' ' :: path) = _
    rw [Fields.fields_append (by decide) (by decide), Fields.fields_singleton hne hspace]
  have hfind : findCommand "source".toList = some ⟨"source", .cmdSource, false, false⟩ := by decide
  have hdispatch : ∀ active dwarf, dispatch active dwarf ("source ".toList ++ path) =
      .handled .cmdSource ["source".toList, path] := by
    intro active dwarf
    unfold dispatch
    rw [hfields]
    dsimp only
    rw [hfind]
    simp
  unfold handle handleCommand
  rw [hdispatch]
  rfl

end Locality

/-! ## Typing the commands -/

section Typing

variable {k : Kernel} {handle : List Char → Shell → Except Ended Shell} {n m : ℕ} {s : Shell}
  {last last' : Option (List Char)} {e : Ended}

/-- More prompts make no difference once the program has ended. -/
theorem dbgStart_mono (h : dbgStart k handle n last s = .error e) :
    dbgStart k handle (n + m) last s = .error e := by
  induction n generalizing last s with
  | zero => cases h
  | succ n ih =>
    have hrest : ∀ {r : Except Ended Shell} {last : Option (List Char)},
        (r >>= dbgStart k handle n last) = .error e →
        (r >>= dbgStart k handle (n + m) last) = .error e := by
      intro r last h
      rcases r with e' | s'
      · exact h
      · exact ih h
    rw [Nat.succ_add]
    unfold dbgStart at h ⊢
    rcases hread : s.readline with ⟨- | (- | ⟨c, cs⟩), s₁⟩
    · rw [hread] at h
      exact hrest h
    · rw [hread] at h
      rcases last with - | line
      · exact ih h
      · exact hrest h
    · rw [hread] at h
      exact hrest h

theorem dbgStart_unique {e' : Ended} (h : dbgStart k handle n last s = .error e)
    (h' : dbgStart k handle m last s = .error e') : e = e' := by
  have hn := dbgStart_mono (m := m) h
  have hm := dbgStart_mono (m := n) h'
  rw [Nat.add_comm] at hm
  exact Except.error.inj (hn.symm.trans hm)

/-- Whatever the last line was, the same can be typed: the empty lines before the first other one
are left out. -/
theorem typed_rest (h : dbgStart k handle n none s = .error e) (last : Option (List Char)) :
    ∃ typed, (∀ x ∈ typed, x = none ∨ x ∈ s.input) ∧
      ∃ m, dbgStart k handle m last ⟨s.world, typed⟩ = .error e := by
  induction n generalizing s with
  | zero => cases h
  | succ n ih =>
    obtain ⟨w, input⟩ := s
    -- a prompt that takes an answer, and the rest by induction
    have hend : ∀ rest, (∀ x ∈ rest, x ∈ input) →
        (quit k none ⟨w, rest⟩ >>= dbgStart k handle n none) = .error e →
        ∃ typed, (∀ x ∈ typed, x = none ∨ x ∈ input) ∧
          ∃ m, dbgStart k handle m last ⟨w, none :: typed⟩ = .error e := by
      intro rest hmem h
      obtain ⟨used, hused, ⟨e', he, herr⟩ | ⟨s', hok, hleft, hrest⟩⟩ :=
        quit_local (k := k) none ⟨w, rest⟩
      · rw [he] at h
        cases h
        refine ⟨used ++ [], fun x hx => ?_, 1, ?_⟩
        · rw [List.append_nil] at hx
          exact (hused x hx).imp_right (hmem x)
        · show (quit k none ⟨w, used ++ []⟩ >>= dbgStart k handle 0 last) = _
          rw [herr]
          rfl
      · rw [hok, ok_bind] at h
        obtain ⟨typed, hfrom, m, hm⟩ := ih h
        refine ⟨used ++ typed, fun x hx => ?_, m + 1, ?_⟩
        · rcases List.mem_append.mp hx with hx | hx
          · exact (hused x hx).imp_right (hmem x)
          · exact (hfrom x hx).imp_right fun hx => hmem x (hleft x hx)
        · show (quit k none ⟨w, used ++ typed⟩ >>= dbgStart k handle m last) = _
          rw [hrest, ok_bind]
          exact hm
    have hnone : ∀ typed, (∀ x ∈ typed, x = none ∨ x ∈ input) →
        ∀ x ∈ (none :: typed : List (Option (List Char))), x = none ∨ x ∈ input := by
      intro typed hfrom x hx
      rcases List.mem_cons.mp hx with rfl | hx
      · exact .inl rfl
      · exact hfrom x hx
    rcases input with - | ⟨x, rest⟩
    · obtain ⟨typed, hfrom, hm⟩ := hend [] nofun h
      exact ⟨_, hnone typed hfrom, hm⟩
    · have hmem : ∀ y ∈ rest, y ∈ x :: rest := fun _ => List.mem_cons_of_mem x
      rcases x with - | (- | ⟨c, cs⟩)
      · obtain ⟨typed, hfrom, hm⟩ := hend rest hmem h
        exact ⟨_, hnone typed hfrom, hm⟩
      · obtain ⟨typed, hfrom, hm⟩ := ih (s := ⟨w, rest⟩) h
        exact ⟨typed, fun y hy => (hfrom y hy).imp_right (hmem y), hm⟩
      · exact ⟨_, fun y hy => .inr hy, n + 1, h⟩

/-- The commands are typed one after the other, by induction, each with the answers it took. -/
theorem typed_commands (hlocal : ∀ line s, Local (handle line) s)
    (hnil : ∀ s, handle [] s = .ok s) {commands : List (List Char)}
    (h : (commands.foldlM (fun s line => handle line s) s >>= dbgStart k handle n none) = .error e)
    (last : Option (List Char)) :
    ∃ typed, (∀ x ∈ typed, x = none ∨ x ∈ s.input ∨ ∃ line ∈ commands, x = some line) ∧
      ∃ m, dbgStart k handle m last ⟨s.world, typed⟩ = .error e := by
  induction commands generalizing s last with
  | nil =>
    obtain ⟨typed, hfrom, hm⟩ := typed_rest h last
    exact ⟨typed, fun x hx => (hfrom x hx).imp_right .inl, hm⟩
  | cons line commands ih =>
    rw [List.foldlM_cons] at h
    rcases line with - | ⟨c, cs⟩
    · rw [hnil, ok_bind] at h
      obtain ⟨typed, hfrom, hm⟩ := ih h last
      refine ⟨typed, fun x hx => (hfrom x hx).imp_right (Or.imp_right ?_), hm⟩
      rintro ⟨line, hline, rfl⟩
      exact ⟨line, List.mem_cons_of_mem _ hline, rfl⟩
    obtain ⟨used, hused, hcases⟩ := hlocal (c :: cs) s
    have hmem : ∀ typed, (∀ x ∈ typed, x = none ∨ x ∈ s.input ∨
        ∃ line ∈ commands, x = some line) → ∀ x ∈ (some (c :: cs) :: (used ++ typed) :
        List (Option (List Char))), x = none ∨ x ∈ s.input ∨
          ∃ line ∈ (c :: cs) :: commands, x = some line := by
      intro typed hfrom x hx
      rcases List.mem_cons.mp hx with rfl | hx
      · exact .inr (.inr ⟨_, List.mem_cons_self, rfl⟩)
      · rcases List.mem_append.mp hx with hx | hx
        · exact (hused x hx).imp_right .inl
        · refine (hfrom x hx).imp_right (Or.imp_right ?_)
          rintro ⟨line, hline, rfl⟩
          exact ⟨line, List.mem_cons_of_mem _ hline, rfl⟩
    rcases hcases with ⟨e', he, herr⟩ | ⟨s', hok, hleft, hrest⟩
    · rw [he] at h
      cases h
      refine ⟨_, hmem [] nofun, 1, ?_⟩
      show (handle (c :: cs) ⟨s.world, used ++ []⟩ >>= dbgStart k handle 0 (some (c :: cs))) = _
      rw [herr]
      rfl
    · rw [hok, ok_bind] at h
      obtain ⟨typed, hfrom, m, hm⟩ := ih h (some (c :: cs))
      refine ⟨_, hmem typed fun x hx => (hfrom x hx).imp_right (Or.imp_left (hleft x)), m + 1, ?_⟩
      show (handle (c :: cs) ⟨s.world, used ++ typed⟩ >>= dbgStart k handle m (some (c :: cs))) = _
      rw [hrest, ok_bind]
      exact hm

end Typing

section Options

variable {k : Kernel} {syms : Symbols} {scripts : Scripts} {turns room : ℕ} {script : Option Arg}

/-- What can be typed instead of the options: a script is sourced. -/
def optionLines (script : Option Arg) (commandList : List Arg) : List (List Char) :=
  match script with
  | some path => ["source ".toList ++ path]
  | none => commandList

theorem start_eq (hscript : ∀ path ∈ script, path ≠ [] ∧ ' ' ∉ path) (commandList : List Arg)
    (s : Shell) : start k syms scripts turns room script commandList s =
      (optionLines script commandList).foldlM
        (fun s line => handle k syms scripts turns room line s) s := by
  rcases script with - | path
  · rfl
  · obtain ⟨hne, hspace⟩ := hscript path rfl
    unfold start optionLines
    rw [List.foldlM_cons, handle_source hne hspace]
    exact (bind_pure _).symm

end Options

end Program

open Program

variable {k : Kernel} {syms : Symbols} {scripts : Scripts} {turns room : ℕ} {script : Option Arg}

/-- **The keyboard does all that options do.** For every script or list of commands that options
give and every input there is an input that brings the program without options to the same end, made
of the lines of the options, what was typed before, and ends of the file. -/
theorem options_typed (hscript : ∀ path ∈ script, path ≠ [] ∧ ' ' ∉ path) (commandList : List Arg)
    (input : List (Option (List Char))) : ∃ typed,
    (∀ x ∈ typed, x = none ∨ x ∈ input ∨ ∃ line ∈ optionLines script commandList, x = some line) ∧
      debug k syms scripts turns room none [] typed =
        debug k syms scripts turns room script commandList input := by
  obtain ⟨e, he⟩ := debug_ends k syms scripts turns room script commandList input
  have hrun := he
  unfold debug at hrun
  rw [start_eq hscript] at hrun
  have hlocal : ∀ line s, Local (handle k syms scripts turns room line) s := fun _ => handle_local
  obtain ⟨typed, hfrom, m, hm⟩ := typed_commands hlocal handle_nil hrun none
  obtain ⟨e', he'⟩ := debug_ends k syms scripts turns room none [] typed
  refine ⟨typed, hfrom, ?_⟩
  rw [he, he']
  exact congrArg Except.error (dbgStart_unique he' hm)

/-- A script that deletes all breakpoints. -/
theorem options_typed_script : ∃ typed,
    (∀ x ∈ typed, x = none ∨ x ∈ [some "list".toList] ∨
      ∃ line ∈ ["source a".toList], x = some line) ∧
    debug .idle .stripped ⟨["delete\n".toList], fun _ => some ⟨0, Nat.one_pos⟩⟩ 9 9 none [] typed =
      debug .idle .stripped ⟨["delete\n".toList], fun _ => some ⟨0, Nat.one_pos⟩⟩ 9 9
        (some "a".toList) [] [some "list".toList] :=
  have hscript : ∀ path ∈ some "a".toList, path ≠ [] ∧ ' ' ∉ path := by decide
  options_typed hscript [] [some "list".toList]

end Vdbg
