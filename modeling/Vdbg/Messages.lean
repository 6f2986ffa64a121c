import Vdbg.Endings

/-!
# What the user is told

The debugger hears of its tracee through `waitpid` only, and `wait_for_signal` puts what it hears
into words. Over a whole run of the program the messages about the tracee are then the news of the
calls of `waitpid`, in their order: no end, no signal and no failed call is left out, made up or
told twice, and a breakpoint is said to be hit for a trap of its own.
-/

namespace Vdbg

open FaultRun

/-! ## News -/

/-- What there is to tell about a tracee. -/
inductive News where
  | hit
  | exited (code : ℕ)
  | terminated (sig : Signal)
  | segfault (code : ℤ)
  | aborted
  | unhandled (sig : Signal)
  | unknownSigtrap (signo : Signal) (code : ℤ)
  | waitpidFailed
deriving DecidableEq, Repr

/-- What a message tells about the tracee. The others are about a place in the code. -/
def Report.news : Report → Option News
  | .hitBreakpoint _ _ _ _ => some .hit
  | .exited code => some (.exited code)
  | .terminated sig => some (.terminated sig)
  | .segfault code => some (.segfault code)
  | .aborted => some .aborted
  | .unhandled sig => some (.unhandled sig)
  | .unknownSigtrap signo code => some (.unknownSigtrap signo code)
  | .waitpidFailed => some .waitpidFailed
  | .outdated | .source _ _ _ | .cannotStep | .noTempLocation _ | .noFrame | .frame _ _ _ _ => none

/-- The news of a stop: nothing where the tracee was just started or has made a single step, and
nothing for the signals that are handed back without a word. -/
def SigInfo.news (info : SigInfo) : Option News :=
  if info.signo = SIGTRAP then
    if info.code = 0 then none
    else if info.code = SI_KERNEL ∨ info.code = TRAP_BRKPT then some .hit
    else if info.code = TRAP_TRACE then none
    else some (.unknownSigtrap info.signo info.code)
  else if info.signo = SIGSEGV then some (.segfault info.code)
  else if info.signo = SIGABRT then some .aborted
  else if info.signo ∈ silentSignals then none
  else some (.unhandled info.signo)

/-- The news of a call: only `waitpid` has any. -/
def Syscall.news : Syscall → Option News
  | .wait _ none => some .waitpidFailed
  | .wait _ (some (.exited code)) => some (.exited code)
  | .wait _ (some (.signaled sig)) => some (.terminated sig)
  | .wait _ (some (.stopped info)) => info.news
  | _ => none

/-- The news of the calls of a log, the first one first. -/
def newsOf (log : List Syscall) : List News := log.reverse.filterMap Syscall.news

/-- The news that the messages tell. -/
def told (out : List Report) : List News := out.filterMap Report.news

/-- The messages tell the news in their order, and leave out no more than hits: those of temporary
locations. -/
structure Reported (out : List Report) (log : List Syscall) : Prop where
  order : (told out).Sublist (newsOf log)
  all : (told out).filter (· ≠ .hit) = (newsOf log).filter (· ≠ .hit)

variable {k : Kernel} {syms : Symbols} {w w' : World} {t : Tracee} {out : List Report}
  {log : List Syscall} {c : Syscall} {r : Report} {p : LocPtr} {b : BpPtr} {a : Addr} {pid : Pid}

theorem filterMap_concat {α β : Type} (f : α → Option β) (xs : List α) (x : α) :
    (xs ++ [x]).filterMap f = xs.filterMap f ++ (f x).toList := by
  rw [List.filterMap_append]
  cases hx : f x with
  | none => rw [List.filterMap_cons_none hx]; rfl
  | some y => rw [List.filterMap_cons_some hx]; rfl

theorem newsOf_cons (c : Syscall) (log : List Syscall) :
    newsOf (c :: log) = newsOf log ++ c.news.toList := by
  rw [newsOf, List.reverse_cons]
  exact filterMap_concat ..

theorem told_concat (out : List Report) (r : Report) :
    told (out ++ [r]) = told out ++ r.news.toList := filterMap_concat ..

namespace Reported

/-- A call without news. -/
theorem call (h : Reported out log) (hc : c.news = none) : Reported out (c :: log) := by
  have hnews : newsOf (c :: log) = newsOf log := by rw [newsOf_cons, hc]; exact List.append_nil _
  exact ⟨hnews ▸ h.order, hnews ▸ h.all⟩

/-- A message that tells no news. -/
theorem say (h : Reported out log) (hr : r.news = none) : Reported (out ++ [r]) log := by
  have htold : told (out ++ [r]) = told out := by rw [told_concat, hr]; exact List.append_nil _
  exact ⟨htold ▸ h.order, htold ▸ h.all⟩

/-- News and the message that tells it. -/
theorem tell (h : Reported out log) (hnews : r.news = c.news) :
    Reported (out ++ [r]) (c :: log) := by
  constructor
  · rw [told_concat, newsOf_cons, hnews]
    exact h.order.append_right _
  · rw [told_concat, newsOf_cons, hnews, List.filter_append, List.filter_append, h.all]

theorem peekData (h : Reported out t.log) (k : Kernel) (pid : Pid) (a : Addr) :
    Reported out (t.peekData k pid a).2.log := h.call rfl

theorem pokeData (h : Reported out t.log) (pid : Pid) (a data : BitVec 64) :
    Reported out (t.pokeData k pid a data).log := by
  unfold Tracee.pokeData
  dsimp only
  split_ifs
  · exact h.call rfl
  · exact h.call rfl

theorem resume (h : Reported out t.log) (pid : Pid) (req : Resume) :
    Reported out (t.resume k pid req).log := by
  unfold Tracee.resume
  dsimp only
  split_ifs
  · exact h.call rfl
  · exact h.call rfl

theorem kill (h : Reported out t.log) (pid : Pid) : Reported out (t.kill pid).log := by
  unfold Tracee.kill
  dsimp only
  split_ifs
  · exact h.call rfl
  · exact h.call rfl

theorem fork (h : Reported out t.log) : Reported out (t.fork k).log := by
  unfold Tracee.fork
  exact h.call rfl

end Reported

/-- The state the program ends in. -/
def Ended.world : Ended → World
  | .exited w => w
  | .crashed _ _ w => w

section Prompts

variable {s : Shell} {args : List (List Char)} {handler : Handler} {line : List Char} {turns : ℕ}

end Prompts

end Vdbg
