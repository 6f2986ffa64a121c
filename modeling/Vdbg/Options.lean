import Vdbg.Lib.Buffers
import Vdbg.World

/-!
# Options

`parse_arguments` of `main.c`, one pass over the arguments of the debugger, and the grammar they are
to follow: a list of items in any order (`Accepted`), of which one is the executable and which do
not mix commands with a script. The state of the pass after some items is what they say
(`Holds`), so that it ends well exactly on the texts of an accepted list.
-/

namespace Vdbg

open Buffers

/-- An argument, a list of its bytes. -/
abbrev Arg := List Char

/-- `argv[i][0] == '-'` -/
def isOption : Arg → Bool
  | '-' :: _ => true
  | _ => false

/-- The two names of the option for a command. -/
def isExecute (arg : Arg) : Bool := arg = "-ex".toList || arg = "--execute".toList

/-- The two names of the option for the help. -/
def isHelp (arg : Arg) : Bool := arg = "--help".toList || arg = "-h".toList

def isScript (arg : Arg) : Bool := arg = "--script".toList

theorem isOption_of_isExecute {arg : Arg} (h : isExecute arg = true) : isOption arg = true := by
  simp only [isExecute, Bool.or_eq_true, decide_eq_true_eq] at h
  rcases h with rfl | rfl <;> rfl

theorem isOption_of_isScript {arg : Arg} (h : isScript arg = true) :
    isOption arg = true ∧ isExecute arg = false := by
  simp only [isScript, decide_eq_true_eq] at h
  subst h
  exact ⟨rfl, rfl⟩

/-! ## The pass -/

/-- What `parse_arguments` refuses. -/
inductive ArgError where
  | executeAfterScript
  | incomplete (option : Arg)
  | invalidCommand (n : ℕ)
  | scriptAfterExecute
  | multipleScripts
  | invalidScript
  | wrongOption (arg : Arg)
  | multipleExecutables
  | noExecutable
deriving DecidableEq, Repr

/-- The text after `Invalid Arguments! `. -/
def ArgError.text : ArgError → List Char
  | executeAfterScript => "Can't have -ex along with script".toList
  | incomplete option => "passing incomplete option: ".toList ++ option
  | invalidCommand n =>
    "invalid commands passed along with ".toList ++ Nat.toDigits 10 n ++ "th -ex".toList
  | scriptAfterExecute => "Can't give script along with -ex".toList
  | multipleScripts => "Can't pass multiple scripts".toList
  | invalidScript => "invalid script passed".toList
  | wrongOption arg => "wrong option: ".toList ++ arg
  | multipleExecutables => "Maybe you are passing multiple executable".toList
  | noExecutable => "No executable found".toList

/-- The local variables of `parse_arguments`. -/
structure ParseState where
  list : Buffer Arg
  path : Option Arg
  script : Option Arg

/-- How the loop of `parse_arguments` is left. -/
inductive ParseEnd where
  | help
  | error (e : ArgError)
  | done (s : ParseState)

/-- The loop of `parse_arguments`, from one argument on. -/
def parseLoop : List Arg → ParseState → Except Fault ParseEnd
  | [], s => .ok (.done s)
  | arg :: args, s =>
    if isOption arg then
      if isExecute arg then
        if s.script.isSome then .ok (.error .executeAfterScript)
        else
          match args with
          | [] => .ok (.error (.incomplete arg))
          | value :: args =>
            if isOption value then .ok (.error (.invalidCommand (s.list.entries.length + 1)))
            else do parseLoop args { s with list := ← s.list.store .outOfBounds value }
      else if isScript arg then
        if s.list.entries ≠ [] then .ok (.error .scriptAfterExecute)
        else if s.script.isSome then .ok (.error .multipleScripts)
        else
          match args with
          | [] => .ok (.error (.incomplete arg))
          | value :: args =>
            if isOption value then .ok (.error .invalidScript)
            else parseLoop args { s with script := some value }
      else if isHelp arg then .ok .help
      else .ok (.error (.wrongOption arg))
    else if s.path.isSome then .ok (.error .multipleExecutables)
    else parseLoop args { s with path := some arg }

/-- What `*command_list` points to. -/
inductive CommandList where
  | unset
  | freed
  | commands (list : List Arg)
deriving DecidableEq, Repr

/-- What `parse_arguments` returns and prints, and what it assigns through its pointers: `none` is
left as it was. -/
structure Parsed where
  ret : Bool
  error : Option ArgError
  executable : Option Arg
  commandList : CommandList
  size : Option ℕ
  scriptPath : Option Arg

/-- `parse_arguments`, with the amounts of memory there is room for. -/
def parseArguments (malloc : ℕ → Bool) (argv : List Arg) : Except Fault Parsed :=
  if malloc argv.length then do
    match ← parseLoop argv.tail ⟨.alloc argv.length, none, none⟩ with
    | .help => return ⟨true, none, none, .freed, none, none⟩
    | .error e => return ⟨false, some e, none, .freed, none, none⟩
    | .done s =>
      match s.path with
      | none => return ⟨false, some .noExecutable, none, .freed, none, none⟩
      | some path =>
        return ⟨true, none, some path, .commands s.list.entries, some s.list.entries.length, s.script⟩
  else .ok ⟨false, none, none, .unset, none, none⟩

/-! ## The grammar -/

/-- A word, or an option with its value. -/
inductive Item where
  | word (arg : Arg)
  | execute (option value : Arg)
  | script (option value : Arg)
deriving DecidableEq, Repr

namespace Item

/-- The arguments an item is written as. -/
def texts : Item → List Arg
  | word arg => [arg]
  | execute option value => [option, value]
  | script option value => [option, value]

/-- The words and the values do not begin with a `-`. -/
def WellFormed : Item → Prop
  | word arg => isOption arg = false
  | execute option value => isExecute option = true ∧ isOption value = false
  | script option value => isScript option = true ∧ isOption value = false

def word? : Item → Option Arg
  | word arg => some arg
  | _ => none

def command? : Item → Option Arg
  | execute _ value => some value
  | _ => none

def script? : Item → Option Arg
  | script _ value => some value
  | _ => none

end Item

def textsOf (items : List Item) : List Arg := items.flatMap Item.texts
def wordsOf (items : List Item) : List Arg := items.filterMap Item.word?
def commandsOf (items : List Item) : List Arg := items.filterMap Item.command?
def scriptsOf (items : List Item) : List Arg := items.filterMap Item.script?

/-- Nothing in the items is refused: there is at most one word and at most one script, and no
command along with a script. -/
structure Admissible (items : List Item) : Prop where
  wellFormed : ∀ item ∈ items, item.WellFormed
  words : (wordsOf items).length ≤ 1
  scripts : (scriptsOf items).length ≤ 1
  exclusive : scriptsOf items = [] ∨ commandsOf items = []

/-- The grammar: what is admissible, with an executable. -/
structure Accepted (items : List Item) : Prop extends Admissible items where
  executable : (wordsOf items).length = 1

section Items

variable {items items' : List Item} {item : Item}

theorem textsOf_cons : textsOf (item :: items) = item.texts ++ textsOf items := List.flatMap_cons

theorem wordsOf_append : wordsOf (items ++ items') = wordsOf items ++ wordsOf items' :=
  List.filterMap_append

theorem commandsOf_append : commandsOf (items ++ items') = commandsOf items ++ commandsOf items' :=
  List.filterMap_append

theorem scriptsOf_append : scriptsOf (items ++ items') = scriptsOf items ++ scriptsOf items' :=
  List.filterMap_append

theorem admissible_nil : Admissible [] :=
  ⟨by simp, by simp [wordsOf], by simp [scriptsOf], .inl rfl⟩

/-- The first of some admissible items are. -/
theorem Admissible.left (h : Admissible (items ++ items')) : Admissible items where
  wellFormed := fun item hitem => h.wellFormed item (List.mem_append_left items' hitem)
  words := by
    have hwords := h.words
    rw [wordsOf_append, List.length_append] at hwords
    omega
  scripts := by
    have hscripts := h.scripts
    rw [scriptsOf_append, List.length_append] at hscripts
    omega
  exclusive := by
    have hexclusive := h.exclusive
    rw [scriptsOf_append, commandsOf_append] at hexclusive
    exact hexclusive.imp (fun h => (List.append_eq_nil_iff.mp h).1)
      fun h => (List.append_eq_nil_iff.mp h).1

/-- What the items before must not have for one more to be admissible. -/
def Item.Fits (items : List Item) : Item → Prop
  | .word _ => wordsOf items = []
  | .execute _ _ => scriptsOf items = []
  | .script _ _ => scriptsOf items = [] ∧ commandsOf items = []

theorem admissible_append_singleton :
    Admissible (items ++ [item]) ↔ Admissible items ∧ item.WellFormed ∧ item.Fits items := by
  have hall : (∀ i ∈ items ++ [item], i.WellFormed) ↔
      (∀ i ∈ items, i.WellFormed) ∧ item.WellFormed := by
    rw [List.forall_mem_append, List.forall_mem_singleton]
  have hzero : ∀ xs : List Arg, xs.length + 1 ≤ 1 ↔ xs = [] := fun xs => by
    rw [← List.length_eq_zero_iff]
    omega
  constructor
  · intro h
    refine ⟨h.left, (hall.mp h.wellFormed).2, ?_⟩
    obtain ⟨-, hwords, hscripts, hexclusive⟩ := h
    rw [wordsOf_append, List.length_append] at hwords
    rw [scriptsOf_append, List.length_append] at hscripts
    rw [scriptsOf_append, commandsOf_append] at hexclusive
    cases item with
    | word arg => exact (hzero _).mp hwords
    | execute option value =>
      rcases hexclusive with hscript | hcommand
      · exact (List.append_eq_nil_iff.mp hscript).1
      · exact absurd (List.append_eq_nil_iff.mp hcommand).2 (List.cons_ne_nil _ _)
    | script option value =>
      refine ⟨(hzero _).mp hscripts, ?_⟩
      rcases hexclusive with hscript | hcommand
      · exact absurd (List.append_eq_nil_iff.mp hscript).2 (List.cons_ne_nil _ _)
      · exact (List.append_eq_nil_iff.mp hcommand).1
  · rintro ⟨⟨hwf, hwords, hscripts, hexclusive⟩, hitem, hfits⟩
    refine ⟨hall.mpr ⟨hwf, hitem⟩, ?_, ?_, ?_⟩
    · rw [wordsOf_append, List.length_append]
      cases item with
      | word arg => exact (hzero _).mpr hfits
      | execute option value => exact hwords
      | script option value => exact hwords
    · rw [scriptsOf_append, List.length_append]
      cases item with
      | word arg => exact hscripts
      | execute option value => exact hscripts
      | script option value => exact (hzero _).mpr hfits.1
    · rw [scriptsOf_append, commandsOf_append]
      cases item with
      | word arg =>
        rw [show scriptsOf [Item.word arg] = [] from rfl,
          show commandsOf [Item.word arg] = [] from rfl, List.append_nil, List.append_nil]
        exact hexclusive
      | execute option value => exact .inl (List.append_eq_nil_iff.mpr ⟨hfits, rfl⟩)
      | script option value => exact .inr (List.append_eq_nil_iff.mpr ⟨hfits.2, rfl⟩)

end Items

/-- The arguments up to an option for help are admissible. -/
def HelpFirst (args : List Arg) : Prop :=
  ∃ items help rest, Admissible items ∧ isHelp help = true ∧ args = textsOf items ++ help :: rest

/-! ## The pass follows the grammar -/

/-- The state of the pass after some items. -/
structure ParseState.Holds (s : ParseState) (items : List Item) : Prop where
  path : s.path = (wordsOf items).head?
  list : s.list.entries = commandsOf items
  script : s.script = (scriptsOf items).head?

section Pass

variable {s s' : ParseState} {items : List Item} {item : Item} {args rest : List Arg}

/-- The state after one more item. -/
inductive ParseState.Takes : ParseState → Item → ParseState → Prop
  | word {s : ParseState} (arg : Arg) : Takes s (.word arg) { s with path := some arg }
  | execute {s : ParseState} {option value : Arg} {list : Buffer Arg} (hcap : list.cap = s.list.cap)
      (hentries : list.entries = s.list.entries ++ [value]) :
      Takes s (.execute option value) { s with list := list }
  | script {s : ParseState} (option value : Arg) :
      Takes s (.script option value) { s with script := some value }

open ParseState

theorem ParseState.Takes.holds (htakes : s.Takes item s') (hs : s.Holds items)
    (hfits : item.Fits items) : s'.Holds (items ++ [item]) := by
  obtain ⟨hpath, hlist, hscript⟩ := hs
  constructor
  · rw [wordsOf_append]
    cases htakes with
    | word arg => rw [show wordsOf items = [] from hfits]; rfl
    | execute hcap hentries => simpa [wordsOf, Item.word?] using hpath
    | script option value => simpa [wordsOf, Item.word?] using hpath
  · rw [commandsOf_append]
    cases htakes with
    | word arg => exact hlist.trans (List.append_nil _).symm
    | execute hcap hentries => rw [hentries, hlist]; rfl
    | script option value => exact hlist.trans (List.append_nil _).symm
  · rw [scriptsOf_append]
    cases htakes with
    | word arg => simpa [scriptsOf, Item.script?] using hscript
    | execute hcap hentries => simpa [scriptsOf, Item.script?] using hscript
    | script option value => rw [show scriptsOf items = [] from hfits.1]; rfl

/-- There is room in the list for every argument that is left. -/
def ParseState.Room (s : ParseState) (args : List Arg) : Prop :=
  s.list.entries.length + args.length ≤ s.list.cap

theorem ParseState.Takes.room (htakes : s.Takes item s') (h : s.Room (item.texts ++ rest)) :
    s'.Room rest := by
  unfold Room at h ⊢
  rw [List.length_append] at h
  cases htakes with
  | word arg => simp only [Item.texts, List.length_singleton] at h ⊢; omega
  | execute hcap hentries =>
    simp only [Item.texts, List.length_cons, List.length_nil, hcap, hentries,
      List.length_append] at h ⊢
    omega
  | script option value => simp only [Item.texts, List.length_cons, List.length_nil] at h ⊢; omega

/-- What the loop asks of its state before it takes an item. -/
def ParseState.Admits (s : ParseState) : Item → Prop
  | .word _ => s.path = none
  | .execute _ _ => s.script = none
  | .script _ _ => s.script = none ∧ s.list.entries = []

theorem ParseState.Holds.admits_iff (hs : s.Holds items) : s.Admits item ↔ item.Fits items := by
  obtain ⟨hpath, hlist, hscript⟩ := hs
  cases item with
  | word arg => exact (Iff.of_eq (congrArg (· = none) hpath)).trans List.head?_eq_none_iff
  | execute option value =>
    exact (Iff.of_eq (congrArg (· = none) hscript)).trans List.head?_eq_none_iff
  | script option value =>
    refine and_congr ?_ (Iff.of_eq (congrArg (· = []) hlist))
    exact (Iff.of_eq (congrArg (· = none) hscript)).trans List.head?_eq_none_iff

/-- One turn of the loop on an item. -/
theorem parseLoop_item (hitem : item.WellFormed) (hadmits : s.Admits item)
    (hroom : s.Room (item.texts ++ rest)) :
    ∃ s', parseLoop (item.texts ++ rest) s = parseLoop rest s' ∧ s.Takes item s' := by
  cases item with
  | word arg =>
    have hnone : s.path.isSome = false := by rw [show s.path = none from hadmits]; rfl
    have hdash : isOption arg = false := hitem
    refine ⟨_, ?_, .word arg⟩
    rw [Item.texts, List.singleton_append, parseLoop.eq_def]
    dsimp only
    rw [hdash, hnone]
    rfl
  | execute option value =>
    have hnone : s.script.isSome = false := by rw [show s.script = none from hadmits]; rfl
    have hlt : s.list.entries.length < s.list.cap := by
      simp only [Room, Item.texts, List.length_append, List.length_cons] at hroom
      omega
    obtain ⟨list, hstore, hcap, hentries⟩ :=
      Buffer.store_of_lt Fault.outOfBounds value hlt
    refine ⟨_, ?_, .execute hcap hentries⟩
    simp only [Item.texts, List.cons_append, List.nil_append, parseLoop,
      isOption_of_isExecute hitem.1, hitem.1, hitem.2, hnone, if_true, Bool.false_eq_true,
      if_false, hstore, FaultRun.ok_bind]
  | script option value =>
    have hnone : s.script.isSome = false := by rw [hadmits.1]; rfl
    have hempty : s.list.entries = [] := hadmits.2
    obtain ⟨hdash, hexecute⟩ := isOption_of_isScript hitem.1
    refine ⟨_, ?_, .script option value⟩
    simp only [Item.texts, List.cons_append, List.nil_append, parseLoop, hdash, hexecute, hitem.1,
      hitem.2, hnone, hempty, ne_eq, not_true_eq_false, if_true, Bool.false_eq_true, if_false]

/-- Where a turn of the loop does not end it, there is an item in front. -/
theorem parseLoop_turn (args : List Arg) (s : ParseState) :
    args = [] ∨ (∃ help rest, args = help :: rest ∧ isHelp help = true ∧
        parseLoop args s = .ok .help) ∨
      (∃ e, parseLoop args s = .ok (.error e)) ∨
      ∃ item rest, args = item.texts ++ rest ∧ item.WellFormed ∧ s.Admits item := by
  cases args with
  | nil => exact .inl rfl
  | cons arg args =>
    refine .inr ?_
    rw [parseLoop.eq_def]
    dsimp only
    split_ifs with hdash hexecute hscript hscript hentries hsome hhelp hpath
    · exact .inr (.inl ⟨_, rfl⟩)
    · cases args with
      | nil => exact .inr (.inl ⟨_, rfl⟩)
      | cons value rest =>
        dsimp only
        split_ifs with hvalue
        · exact .inr (.inl ⟨_, rfl⟩)
        · exact .inr (.inr ⟨.execute arg value, rest, rfl, ⟨hexecute, eq_false_of_ne_true hvalue⟩,
            Option.not_isSome_iff_eq_none.mp hscript⟩)
    · exact .inr (.inl ⟨_, rfl⟩)
    · exact .inr (.inl ⟨_, rfl⟩)
    · cases args with
      | nil => exact .inr (.inl ⟨_, rfl⟩)
      | cons value rest =>
        dsimp only
        split_ifs with hvalue
        · exact .inr (.inl ⟨_, rfl⟩)
        · exact .inr (.inr ⟨.script arg value, rest, rfl, ⟨hscript, eq_false_of_ne_true hvalue⟩,
            Option.not_isSome_iff_eq_none.mp hsome, not_not.mp hentries⟩)
    · exact .inl ⟨arg, args, rfl, hhelp, rfl⟩
    · exact .inr (.inl ⟨_, rfl⟩)
    · exact .inr (.inl ⟨_, rfl⟩)
    · exact .inr (.inr ⟨.word arg, args, rfl, eq_false_of_ne_true hdash,
        Option.not_isSome_iff_eq_none.mp hpath⟩)

variable (rest) in
/-- The loop on admissible items. -/
theorem parseLoop_items {items' : List Item} (hs : s.Holds items)
    (hadm : Admissible (items ++ items')) (hroom : s.Room (textsOf items' ++ rest)) :
    ∃ s', parseLoop (textsOf items' ++ rest) s = parseLoop rest s' ∧
      s'.Holds (items ++ items') := by
  induction items' generalizing s items with
  | nil => exact ⟨s, rfl, by rwa [List.append_nil]⟩
  | cons item items' ih =>
    rw [List.append_cons] at hadm ⊢
    rw [textsOf_cons, List.append_assoc] at hroom ⊢
    obtain ⟨-, hitem, hfits⟩ := admissible_append_singleton.mp hadm.left
    obtain ⟨s₁, hloop, htakes⟩ := parseLoop_item hitem (hs.admits_iff.mpr hfits) hroom
    rw [hloop]
    exact ih (htakes.holds hs hfits) hadm (htakes.room hroom)

/-- What an end of the loop says about the arguments it began with. -/
def Reads (items : List Item) (args : List Arg) : ParseEnd → Prop
  | .help => ∃ items' help rest, Admissible (items ++ items') ∧ isHelp help = true ∧
      args = textsOf items' ++ help :: rest
  | .error _ => True
  | .done s => ∃ items', Admissible (items ++ items') ∧ args = textsOf items' ∧
      s.Holds (items ++ items')

theorem Reads.cons {e : ParseEnd} (h : Reads (items ++ [item]) rest e) :
    Reads items (item.texts ++ rest) e := by
  cases e with
  | error e => trivial
  | help =>
    obtain ⟨items', help, rest', hadm, hhelp, hrest⟩ := h
    refine ⟨item :: items', help, rest', ?_, hhelp, ?_⟩
    · rwa [List.append_cons]
    · rw [textsOf_cons, hrest, List.append_assoc]
  | done s =>
    obtain ⟨items', hadm, hrest, hs⟩ := h
    refine ⟨item :: items', ?_, ?_, ?_⟩
    · rwa [List.append_cons]
    · rw [textsOf_cons, hrest]
    · rwa [List.append_cons]

/-- The loop stays within the list, and ends on admissible items or an error. -/
theorem parseLoop_reads (hs : s.Holds items) (hadm : Admissible items) (hroom : s.Room args) :
    ∃ e, parseLoop args s = .ok e ∧ Reads items args e := by
  induction hn : args.length using Nat.strong_induction_on generalizing args s items with
  | _ n ih =>
    rcases parseLoop_turn args s with rfl | ⟨help, rest, rfl, hhelp, hloop⟩ | ⟨e, hloop⟩ |
      ⟨item, rest, rfl, hitem, hadmits⟩
    · exact ⟨.done s, rfl, [], by rwa [List.append_nil], rfl, by rwa [List.append_nil]⟩
    · exact ⟨.help, hloop, [], help, rest, by rwa [List.append_nil], hhelp, rfl⟩
    · exact ⟨.error e, hloop, trivial⟩
    · have hfits := hs.admits_iff.mp hadmits
      obtain ⟨s', hloop, htakes⟩ := parseLoop_item hitem hadmits hroom
      have hlt : rest.length < n := by
        rw [← hn, List.length_append]
        cases item <;> simp [Item.texts]
      obtain ⟨e, he, hreads⟩ := ih rest.length hlt (htakes.holds hs hfits)
        (admissible_append_singleton.mpr ⟨hadm, hitem, hfits⟩) (htakes.room hroom) rfl
      exact ⟨e, hloop.trans he, hreads.cons⟩

end Pass

/-! ## Accepted arguments -/

section Accepted

variable {malloc : ℕ → Bool} {argv : List Arg}

theorem holds_start (n : ℕ) : ParseState.Holds ⟨.alloc n, none, none⟩ [] := ⟨rfl, rfl, rfl⟩

theorem room_start (argv : List Arg) :
    ParseState.Room ⟨.alloc argv.length, none, none⟩ argv.tail := by
  unfold ParseState.Room
  rw [List.length_tail]
  show 0 + (argv.length - 1) ≤ argv.length
  omega

/-- What is assigned for an accepted list. -/
def parsedOf (items : List Item) : Parsed where
  ret := true
  error := none
  executable := (wordsOf items).head?
  commandList := .commands (commandsOf items)
  size := some (commandsOf items).length
  scriptPath := (scriptsOf items).head?

theorem parseArguments_accepted {items : List Item} (hmalloc : malloc argv.length = true)
    (hitems : Accepted items) (hargv : argv.tail = textsOf items) :
    parseArguments malloc argv = .ok (parsedOf items) := by
  obtain ⟨s, hloop, hs⟩ := parseLoop_items [] (holds_start argv.length)
    hitems.toAdmissible (by rw [List.append_nil, ← hargv]; exact room_start argv)
  obtain ⟨hpath, hlist, hscript⟩ := hs
  obtain ⟨path, hword⟩ := List.length_eq_one_iff.mp hitems.executable
  rw [List.append_nil, ← hargv] at hloop
  rw [List.nil_append] at hpath hlist hscript
  unfold parseArguments
  rw [if_pos hmalloc, hloop, parseLoop, FaultRun.ok_bind]
  dsimp only
  rw [hpath, hword, hlist, hscript, parsedOf, hword]
  rfl

/-- The arguments follow the grammar. -/
def InGrammar (args : List Arg) : Prop := ∃ items, Accepted items ∧ args = textsOf items

theorem parseArguments_rejected (hmalloc : malloc argv.length = true)
    (hargv : ¬InGrammar argv.tail) : ∃ r, parseArguments malloc argv = .ok r ∧
      r.executable = none ∧ r.size = none ∧ r.scriptPath = none ∧
      (r.ret = true → HelpFirst argv.tail) := by
  obtain ⟨e, hloop, hreads⟩ := parseLoop_reads (holds_start argv.length) admissible_nil
    (room_start argv)
  unfold parseArguments
  rw [if_pos hmalloc, hloop, FaultRun.ok_bind]
  cases e with
  | help =>
    obtain ⟨items, help, rest, hadm, hhelp, hrest⟩ := hreads
    exact ⟨_, rfl, rfl, rfl, rfl, fun _ => ⟨items, help, rest, hadm, hhelp, hrest⟩⟩
  | error e => exact ⟨_, rfl, rfl, rfl, rfl, fun h => by cases h⟩
  | done s =>
    obtain ⟨items, hadm, hrest, hpath, -, -⟩ := hreads
    rw [List.nil_append] at hadm hpath
    have hwords : wordsOf items = [] := by
      by_contra hne
      have hpos := List.length_pos_iff.mpr hne
      have hwords := hadm.words
      exact hargv ⟨items, ⟨hadm, by omega⟩, hrest⟩
    rw [hwords] at hpath
    dsimp only
    rw [hpath]
    exact ⟨_, rfl, rfl, rfl, rfl, fun h => by cases h⟩

/-- `parse_arguments` sets the executable exactly on the arguments of the grammar. There it assigns
what they say; elsewhere it assigns none of them, and returns true only for an option for help that
nothing is wrong before. -/
theorem parseArguments_iff_inGrammar (malloc : ℕ → Bool) (argv : List Arg)
    (hmalloc : malloc argv.length = true) :
    ∃ r, parseArguments malloc argv = .ok r ∧ (r.executable ≠ none ↔ InGrammar argv.tail) ∧
      (∀ items, Accepted items → argv.tail = textsOf items → r = parsedOf items) ∧
      (¬InGrammar argv.tail → r.executable = none ∧ r.size = none ∧ r.scriptPath = none ∧
        (r.ret = true → HelpFirst argv.tail)) := by
  by_cases hargv : InGrammar argv.tail
  · obtain ⟨items, hitems, htexts⟩ := hargv
    have hparse := parseArguments_accepted hmalloc hitems htexts
    refine ⟨_, hparse, iff_of_true ?_ ⟨items, hitems, htexts⟩, fun items' hitems' htexts' => ?_,
      fun h => absurd ⟨items, hitems, htexts⟩ h⟩
    · obtain ⟨path, hword⟩ := List.length_eq_one_iff.mp hitems.executable
      show (wordsOf items).head? ≠ none
      rw [hword]
      exact Option.some_ne_none path
    · have hparse' := parseArguments_accepted hmalloc hitems' htexts'
      rw [hparse] at hparse'
      exact Except.ok.inj hparse'
  · obtain ⟨r, hparse, hexecutable, hrest⟩ := parseArguments_rejected hmalloc hargv
    exact ⟨r, hparse, iff_of_false (not_not.mpr hexecutable) hargv,
      fun items hitems htexts => absurd ⟨items, hitems, htexts⟩ hargv,
      fun _ => ⟨hexecutable, hrest⟩⟩

/-- `vdbg -ex run prog` -/
theorem parseArguments_run_prog :
    ∃ r, parseArguments (fun _ => true)
        ["vdbg".toList, "-ex".toList, "run".toList, "prog".toList] = .ok r ∧
      r.executable = some "prog".toList ∧ r.commandList = .commands ["run".toList] := by
  obtain ⟨r, hparse, -, hitems, -⟩ := parseArguments_iff_inGrammar (fun _ => true)
    ["vdbg".toList, "-ex".toList, "run".toList, "prog".toList] rfl
  have hexecute : Item.WellFormed (.execute "-ex".toList "run".toList) := ⟨by decide, by decide⟩
  have hword : isOption "prog".toList = false := by decide
  have hr := hitems [.execute "-ex".toList "run".toList, .word "prog".toList]
    ⟨⟨List.forall_mem_cons.mpr ⟨hexecute, List.forall_mem_singleton.mpr hword⟩, by decide,
      by decide, .inl rfl⟩, by decide⟩
    List.tail_cons
  rw [hr] at hparse
  exact ⟨_, hparse, rfl, rfl⟩

end Accepted

end Vdbg
