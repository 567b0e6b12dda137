import Emuriscv.Cpu
import Emuriscv.Monitor
import Mathlib.Data.List.TakeWhile

/-! One round of `run_monitor_loop`: a line of input, its tokens, and what the branches of the loop
take out of them. A branch that asks for a token beyond the last one has no result. -/
namespace Emuriscv.Monitor

open Numeral

/-- `fgets` with room for `n` characters besides the NUL; also what it leaves of the input. -/
def fgets : Nat → Text → Text × Text
  | 0, input => ([],input)
  | _ + 1, [] => ([],[])
  | n + 1, c :: rest =>
    if c = '\n' then ([c],rest)
    else
      let (line, rest) := fgets n rest
      (c :: line,rest)

theorem fgets_shorter (n : Nat) {input : Text} (some : input ≠ []) :
    (fgets (n + 1) input).2.length < input.length := by
  induction n generalizing input with
  | zero =>
    obtain ⟨c,behind,rfl⟩ := List.exists_cons_of_ne_nil some
    rw [fgets]
    split <;> simp [fgets]
  | succ n ih =>
    obtain ⟨c,behind,rfl⟩ := List.exists_cons_of_ne_nil some
    rw [fgets]
    split
    next => simp
    next =>
      by_cases last : behind = []
      · simp [last,fgets]
      · exact Nat.lt_succ_of_lt (ih last)

/-- The string in the buffer, without the newline. -/
def chomp (buffer : Text) : Text := buffer.takeWhile fun c => c ≠ '\n' ∧ c ≠ '\x00'

/-- `strtok(NULL, " ")`: the next token, and where to go on behind it. -/
def strtok (text : Text) : Option (Text × Text) :=
  match text.dropWhile (· = ' ') with
  | [] => none
  | token => some (token.takeWhile (· ≠ ' '), (token.dropWhile (· ≠ ' ')).tail)

/-- The entries of `tokens` that have been written; the last one may be NULL. -/
abbrev Tokens := List (Option Text)

def tokenize : Nat → Text → Tokens
  | 0, _ => []
  | n + 1, text =>
    match strtok text with
    | none => [none]
    | some (token, rest) => some token :: tokenize n rest

namespace Tokens

/-- `token_count` -/
def count (tokens : Tokens) : Nat := (tokens.takeWhile Option.isSome).length

/-- A token for a library function to read. -/
def get (tokens : Tokens) (i : Nat) : Except Stop Text :=
  match tokens[i]? with
  | some (some token) => pure token
  | some none => throw .nullPointer
  | none => throw .uninitialized

/-- `get_repeat`, which passes the number through a `word`. -/
def getRepeat (tokens : Tokens) : Except Stop Nat :=
  if tokens.count > 2 then do
    let count ← tokens.get 2
    pure (atoi count).toNat
  else pure 1

end Tokens

inductive Place where
  | register (name : Text)
  | literal (address : Word)
  deriving DecidableEq

/-- What a line makes the monitor do. -/
inductive Action where
  | nothing
  | help
  | quit
  | regs
  | reg (name : Text)
  | dumpVirtual (start : Place) (count : Nat)
  | dumpPhysical (start : Place) (count : Nat)
  | dumpString (start : Word)
  | write (address value : Word)
  | disassemble (start : Place) (count : Nat)
  | step (count : Nat)
  | backtrace
  | symbol
  | save (file : Text)
  | load (file : Text)
  deriving DecidableEq

abbrev Handler := Tokens → Except Stop Action

/-- A branch that looks at `token_count` first. -/
def guarded (n : Nat) (handler : Handler) : Handler := fun tokens =>
  if tokens.count > n then handler tokens else pure .nothing

/-- The arguments of a dump: where it starts, and how often it is repeated. -/
def dumpArguments (start : Text → Place) (action : Place → Nat → Action) : Handler := fun tokens => do
  let place ← tokens.get 1
  let count ← tokens.getRepeat
  pure (action (start place) count)

def addressPlace (token : Text) : Place := .literal (getAddress token)

/-- The branch that does not look at the number of tokens before its first argument. It converts the
number of repetitions to `size_t` at once, as `step` does. -/
def xpHandler (sizeBits : Nat) : Handler := fun tokens => do
  let address := strtoul (← tokens.get 1)
  let count ←
    if tokens.count > 2 then do pure ((atoi (← tokens.get 2)).signExtend sizeBits).toNat
    else pure 1
  pure (.dumpPhysical (.literal address) count)

/-- The branches in their order. -/
def handlers (sizeBits : Nat) : List (String × Handler) := [
  ("help", fun _ => pure .help),
  ("?", fun _ => pure .help),
  ("q", fun _ => pure .quit),
  ("regs", fun _ => pure .regs),
  ("reg", guarded 1 fun tokens => do pure (.reg (← tokens.get 1))),
  ("p", guarded 1 (dumpArguments .register .dumpVirtual)),
  ("pp", guarded 1 (dumpArguments .register .dumpPhysical)),
  ("x", guarded 1 (dumpArguments addressPlace .dumpVirtual)),
  ("xs", guarded 1 fun tokens => do pure (.dumpString (getAddress (← tokens.get 1)))),
  ("xp", xpHandler sizeBits),
  ("w", guarded 2 fun tokens => do
    pure (.write (getAddress (← tokens.get 1)) (strtoul (← tokens.get 2)))),
  ("d", guarded 1 (dumpArguments addressPlace .disassemble)),
  ("dr", guarded 1 (dumpArguments .register .disassemble)),
  ("step", guarded 1 fun tokens => do
    pure (.step ((atoi (← tokens.get 1)).signExtend sizeBits).toNat)),
  ("bt", fun _ => pure .backtrace),
  ("sym", fun _ => pure .symbol),
  ("save", guarded 1 fun tokens => do pure (.save (← tokens.get 1))),
  ("load", guarded 1 fun tokens => do pure (.load (← tokens.get 1)))]

/-- The comparisons with the first token, and the branch that is taken. -/
def dispatch (sizeBits : Nat) (tokens : Tokens) : Except Stop Action := do
  let name ← tokens.get 0
  match (handlers sizeBits).find? (·.1.toList = name) with
  | some (_, handler) => handler tokens
  | none => pure .nothing

/-- An empty line is not looked at; of another one the first ten tokens are. -/
def interpret (sizeBits : Nat) (line : Text) : Except Stop Action :=
  if line = [] then pure .nothing else dispatch sizeBits (tokenize 10 line)

/-- The commands that open a file. -/
structure Files where
  save : Text → State → Except Stop Unit
  load : Text → State → Except Stop State

/-- The monitor is used without `load`. -/
def Files.LoadsNothing (files : Files) : Prop := ∀ file s t, files.load file s ≠ .ok t

/-- A file system that takes what it is given and shows nothing. -/
def noFiles : Files := ⟨fun _ _ => pure (), fun _ s => pure s⟩

def Place.start (s : State) : Place → Word
  | .register name => getRegisterValue s name
  | .literal address => address

/-- A failed lookup is reported, and the word is written all the same. -/
def writeMemoryVirtual [Platform] (s : State) (address value : Word) : Except Stop State := do
  let l ← getMemoryTarget s address .load
  writeWord l.state address value

def stepLoop [Platform] : Nat → State → Except Stop State
  | 0, s => pure s
  | n + 1, s => do
    let s ← emulateOp s
    stepLoop n s

/-- The body of a branch. -/
def Action.perform [Platform] (sizeBits : Nat) (symbols : List Symbol) (files : Files) (s : State) :
    Action → Except Stop State
  | .nothing | .help | .quit | .reg _ => pure s
  | .regs => dumpRegisters s
  | .dumpVirtual start count => dumpMemoryVirtual sizeBits s (start.start s) count
  | .dumpPhysical start count => dumpMemoryPhysical sizeBits s (start.start s) count
  | .dumpString start => dumpStringVirtual s start
  | .write address value => writeMemoryVirtual s address value
  | .disassemble start count => disassembleWord sizeBits s (start.start s) count
  | .step count => stepLoop count s
  | .backtrace => dumpBacktrace s
  | .symbol => do
    let _ ← getSymbol symbols s.pc
    pure s
  | .save file => do
    files.save file s
    pure s
  | .load file => files.load file s

/-- The result is the returned value, the state, and the input that is left. -/
def runMonitorLoop [Platform] (sizeBits : Nat) (symbols : List Symbol) (files : Files) (s : State)
    (input : Text) : Except Stop (Int × State × Text) :=
  if input = [] then pure (-1,s,[])
  else do
    let (buffer, rest) := fgets 63 input
    let action ← interpret sizeBits (chomp buffer)
    let s ← action.perform sizeBits symbols files s
    pure (if action = .quit then 1 else 0,s,rest)

/-- The words of a line: what stands between blanks. -/
def words (text : Text) : List Text := (text.splitOnP (· = ' ')).filter (· ≠ [])

theorem words_blank (text rest : Text) : words (text ++ ' ' :: rest) = words text ++ words rest := by
  rw [words,List.splitOnP_append_cons _ _ (by simp),List.filter_append,words,words]

theorem words_dropWhile (text : Text) : words (text.dropWhile (· = ' ')) = words text := by
  induction text with
  | nil => rfl
  | cons c text ih =>
    by_cases blank : c = ' '
    · have skip := words_blank [] text
      simp only [List.nil_append] at skip
      rw [blank,List.dropWhile_cons_of_pos (by simp),ih,skip]
      simp [words,List.splitOnP_nil]
    · rw [List.dropWhile_cons_of_neg (by simpa using blank)]

theorem words_word {token : Text} (some : token ≠ []) (whole : ∀ c ∈ token, c ≠ ' ') :
    words token = [token] := by
  rw [words,List.splitOnP_eq_singleton (by simpa using whole)]
  simp [some]

/-- A token is the first word of what there is. -/
theorem strtok_words (text : Text) :
    words text = match strtok text with
      | none => []
      | some (token, rest) => token :: words rest := by
  rw [← words_dropWhile,strtok]
  cases start : text.dropWhile (· = ' ') with
  | nil => simp [words,List.splitOnP_nil]
  | cons c behind =>
    have letter : c ≠ ' ' := by
      have head := List.head_dropWhile_not (p := fun c => decide (c = ' ')) (l := text) (by simp [start])
      simpa [start] using head
    have token : (c :: behind).takeWhile (· ≠ ' ') ≠ [] := by simp [letter]
    have whole : ∀ x ∈ (c :: behind).takeWhile (· ≠ ' '), x ≠ ' ' := by
      intro x member
      simpa using List.mem_takeWhile_imp member
    have word := words_word token whole
    dsimp only
    cases after : (c :: behind).dropWhile (· ≠ ' ') with
    | nil =>
      have all := List.takeWhile_append_dropWhile (p := fun c => decide (c ≠ ' ')) (l := c :: behind)
      rw [after,List.append_nil] at all
      rw [all] at word ⊢
      rw [word]
      simp [words,List.splitOnP_nil]
    | cons blank rest =>
      have all := List.takeWhile_append_dropWhile (p := fun c => decide (c ≠ ' ')) (l := c :: behind)
      have stops : blank = ' ' := by
        have head := List.head_dropWhile_not (p := fun c => decide (c ≠ ' ')) (l := c :: behind)
          (by rw [after]; exact List.cons_ne_nil _ _)
        simpa only [after,List.head_cons,decide_eq_false_iff_not,not_not] using head
      rw [after,stops] at all
      rw [← all,words_blank,all,word]
      rfl

theorem tokenize_words (n : Nat) (text : Text) :
    tokenize n text = ((words text).take n).map some ++ if (words text).length < n then [none] else [] := by
  induction n generalizing text with
  | zero => rfl
  | succ n ih =>
    rw [tokenize,strtok_words]
    cases strtok text with
    | none => rfl
    | some found => simp [ih]

namespace Tokens

theorem count_words (n : Nat) (text : Text) : (tokenize n text).count = min n (words text).length := by
  have present : ∀ token ∈ ((words text).take n).map some, token.isSome = true := by
    intro token member
    obtain ⟨_,_,rfl⟩ := List.mem_map.mp member
    rfl
  rw [count,tokenize_words,List.takeWhile_append_of_pos present]
  split <;> simp

theorem get_words (n : Nat) (text : Text) {i : Nat} (here : i < (tokenize n text).count) :
    ∃ token, (words text)[i]? = some token ∧ (tokenize n text).get i = .ok token := by
  rw [count_words] at here
  have inside : i < (words text).length := Nat.lt_of_lt_of_le here (Nat.min_le_right _ _)
  have entry : (tokenize n text)[i]? = some (words text)[i] := by
    rw [tokenize_words,List.getElem?_append_left (by simpa using here)]
    simp [inside,Nat.lt_of_lt_of_le here (Nat.min_le_left _ _)]
  exact ⟨_, List.getElem?_eq_getElem inside, by rw [get,entry]; rfl⟩

/-- Behind the last token the array holds NULL, if it is not full. -/
theorem get_last {n : Nat} {text : Text} (short : (words text).length < n) :
    (tokenize n text).get (words text).length = .error .nullPointer := by
  have entry : (tokenize n text)[(words text).length]? = some none := by
    rw [tokenize_words,if_pos short,List.take_of_length_le (Nat.le_of_lt short),
      List.getElem?_append_right (by simp)]
    simp
  rw [get,entry]
  rfl

end Tokens

/-- What a line asks for, by its first word and the others. Where words are missing it asks for
nothing. -/
def asked (sizeBits : Nat) : String → List Text → Action
  | "help", _ | "?", _ => .help
  | "q", _ => .quit
  | "regs", _ => .regs
  | "reg", name :: _ => .reg name
  | "p", name :: more => .dumpVirtual (.register name) (getRepeat (name :: more))
  | "pp", name :: more => .dumpPhysical (.register name) (getRepeat (name :: more))
  | "x", address :: more => .dumpVirtual (.literal (strtoul address)) (getRepeat (address :: more))
  | "xs", address :: _ => .dumpString (strtoul address)
  | "xp", [address] => .dumpPhysical (.literal (strtoul address)) 1
  | "xp", address :: count :: _ =>
    .dumpPhysical (.literal (strtoul address)) ((atoi count).signExtend sizeBits).toNat
  | "w", address :: value :: _ => .write (strtoul address) (strtoul value)
  | "d", address :: more => .disassemble (.literal (strtoul address)) (getRepeat (address :: more))
  | "dr", name :: more => .disassemble (.register name) (getRepeat (name :: more))
  | "step", count :: _ => .step ((atoi count).signExtend sizeBits).toNat
  | "bt", _ => .backtrace
  | "sym", _ => .symbol
  | "save", file :: _ => .save file
  | "load", file :: _ => .load file
  | _, _ => .nothing

section Words

variable {text : Text} {arguments : List Text} (split : words text = name :: arguments)

include split

theorem count_gt_iff (n : Nat) (few : n ≤ 9) :
    (tokenize 10 text).count > n ↔ n ≤ arguments.length := by
  rw [Tokens.count_words,split,List.length_cons]
  omega

theorem get_name : (tokenize 10 text).get 0 = .ok name := by
  have counted := (count_gt_iff split 0 (by decide)).mpr (Nat.zero_le _)
  obtain ⟨token,here,read⟩ := Tokens.get_words 10 text counted
  rw [split,List.getElem?_cons_zero] at here
  rw [read,Option.some.inj here]

theorem get_first (given : arguments = first :: more) : (tokenize 10 text).get 1 = .ok first := by
  have counted := (count_gt_iff split 1 (by decide)).mpr (by simp [given])
  obtain ⟨token,here,read⟩ := Tokens.get_words 10 text counted
  rw [split,given,List.getElem?_cons_succ,List.getElem?_cons_zero] at here
  rw [read,Option.some.inj here]

theorem get_second (given : arguments = first :: second :: more) :
    (tokenize 10 text).get 2 = .ok second := by
  have counted := (count_gt_iff split 2 (by decide)).mpr (by simp [given])
  obtain ⟨token,here,read⟩ := Tokens.get_words 10 text counted
  rw [split,given,List.getElem?_cons_succ,List.getElem?_cons_succ,List.getElem?_cons_zero] at here
  rw [read,Option.some.inj here]

theorem getRepeat_words : (tokenize 10 text).getRepeat = .ok (getRepeat arguments) := by
  rw [Tokens.getRepeat]
  simp only [count_gt_iff split 2 (by decide)]
  rcases arguments with _ | ⟨first, _ | ⟨second,more⟩⟩
  · rfl
  · rfl
  · rw [if_pos (by simp),get_second split rfl]
    rfl

/-- A branch with its check of the number of tokens. -/
theorem guarded_words (n : Nat) (few : n ≤ 9) (handler : Handler) :
    guarded n handler (tokenize 10 text) =
      if n ≤ arguments.length then handler (tokenize 10 text) else .ok .nothing := by
  rw [guarded]
  simp only [count_gt_iff split n few]
  rfl

theorem guarded_one {action : Text → Action} {result : Action} (none : arguments = [] → result = .nothing)
    (some : ∀ first more, arguments = first :: more → result = action first) :
    guarded 1 (fun tokens => do pure (action (← tokens.get 1))) (tokenize 10 text) = .ok result := by
  rw [guarded_words split 1 (by decide)]
  cases arguments with
  | nil => exact congrArg Except.ok (none rfl).symm
  | cons first more =>
    rw [if_pos (by simp),get_first split rfl,some first more rfl]
    rfl

theorem guarded_dump {start : Text → Place} {action : Place → Nat → Action} {result : Action}
    (none : arguments = [] → result = .nothing)
    (some : ∀ first more, arguments = first :: more →
      result = action (start first) (getRepeat (first :: more))) :
    guarded 1 (dumpArguments start action) (tokenize 10 text) = .ok result := by
  rw [guarded_words split 1 (by decide)]
  cases arguments with
  | nil => exact congrArg Except.ok (none rfl).symm
  | cons first more =>
    rw [if_pos (by simp),dumpArguments,get_first split rfl,ok_bind,getRepeat_words split,some first more rfl]
    rfl

theorem guarded_two {action : Text → Text → Action} {result : Action}
    (few : arguments.length < 2 → result = .nothing)
    (some : ∀ first second more, arguments = first :: second :: more → result = action first second) :
    guarded 2 (fun tokens => do pure (action (← tokens.get 1) (← tokens.get 2))) (tokenize 10 text) =
      .ok result := by
  rw [guarded_words split 2 (by decide)]
  rcases arguments with _ | ⟨first, _ | ⟨second,more⟩⟩
  · exact congrArg Except.ok (few (by decide)).symm
  · exact congrArg Except.ok (few (by simp)).symm
  · rw [if_pos (by simp),get_first split rfl,ok_bind,get_second split rfl,some first second more rfl]
    rfl

/-- The branch that does not look needs its first argument. -/
theorem xpHandler_words (sizeBits : Nat) : xpHandler sizeBits (tokenize 10 text) =
    if arguments = [] then .error .nullPointer else .ok (asked sizeBits "xp" arguments) := by
  rw [xpHandler]
  simp only [count_gt_iff split 2 (by decide)]
  rcases arguments with _ | ⟨first, _ | ⟨second,more⟩⟩
  · have absent : (tokenize 10 text).get (words text).length = _ := Tokens.get_last (by simp [split])
    rw [split] at absent
    rw [show (tokenize 10 text).get 1 = _ from absent]
    rfl
  · rw [get_first split rfl]
    rfl
  · rw [get_first split rfl,get_second split rfl]
    rfl

end Words

/-- No branch has another name. -/
theorem asked_unknown {sizeBits : Nat} {name : String}
    (unknown : ∀ handler ∈ handlers sizeBits, handler.1 ≠ name) (arguments : List Text) :
    asked sizeBits name arguments = .nothing := by
  simp only [handlers,List.forall_mem_cons] at unknown
  unfold asked
  split <;> simp_all

/-- Each branch does what the words ask for, but that of `xp` without an argument. -/
theorem handlers_asked (sizeBits : Nat) {text : Text} {arguments : List Text} :
    ∀ handler ∈ handlers sizeBits, words text = handler.1.toList :: arguments →
      (handler.1 = "xp" → arguments ≠ []) →
      handler.2 (tokenize 10 text) = .ok (asked sizeBits handler.1 arguments) := by
  have alone {name : String} (bare : asked sizeBits name [] = .nothing) (none : arguments = []) :
      asked sizeBits name arguments = .nothing := by rw [none,bare]
  have filled {name : String} {first : Text} {more : List Text} {action : Action}
      (full : asked sizeBits name (first :: more) = action) (some : arguments = first :: more) :
      asked sizeBits name arguments = action := by rw [some,full]
  simp only [handlers,List.forall_mem_cons]
  refine ⟨fun _ _ => rfl, fun _ _ => rfl, fun _ _ => rfl, fun _ _ => rfl,
    fun split _ => guarded_one split (alone rfl) fun _ _ => filled rfl,
    fun split _ => guarded_dump split (alone rfl) fun _ _ => filled rfl,
    fun split _ => guarded_dump split (alone rfl) fun _ _ => filled rfl,
    fun split _ => guarded_dump split (alone rfl) fun _ _ => filled rfl,
    fun split _ => guarded_one split (alone rfl) fun _ _ => filled rfl,
    fun split given => ?_, fun split _ => guarded_two split ?_ fun _ _ _ => filled rfl,
    fun split _ => guarded_dump split (alone rfl) fun _ _ => filled rfl,
    fun split _ => guarded_dump split (alone rfl) fun _ _ => filled rfl,
    fun split _ => guarded_one split (alone rfl) fun _ _ => filled rfl, fun _ _ => rfl, fun _ _ => rfl,
    fun split _ => guarded_one split (alone rfl) fun _ _ => filled rfl,
    fun split _ => guarded_one split (alone rfl) fun _ _ => filled rfl, by simp⟩
  · rw [xpHandler_words split,if_neg (given trivial)]
  · intro few
    rcases arguments with _ | ⟨first, _ | ⟨second,more⟩⟩
    · rfl
    · rfl
    · exact absurd few (by simp)

theorem dispatch_asked (sizeBits : Nat) {text : Text} {name : String} {arguments : List Text}
    (split : words text = name.toList :: arguments) (given : name = "xp" → arguments ≠ []) :
    dispatch sizeBits (tokenize 10 text) = .ok (asked sizeBits name arguments) := by
  rw [dispatch,get_name split,ok_bind]
  cases found : (handlers sizeBits).find? (·.1.toList = name.toList) with
  | none =>
    have unknown := List.find?_eq_none.mp found
    rw [asked_unknown fun handler member same => unknown handler member (by simp [same])]
    rfl
  | some handler =>
    have named := List.find?_some found
    obtain rfl := String.toList_inj.mp (of_decide_eq_true named)
    exact handlers_asked sizeBits handler (List.mem_of_find?_eq_some found) split given

theorem dispatch_xp (sizeBits : Nat) {text : Text} (split : words text = ["xp".toList]) :
    dispatch sizeBits (tokenize 10 text) = .error .nullPointer := by
  have branch : (handlers sizeBits).find? (·.1.toList = "xp".toList) = some ("xp", xpHandler sizeBits) := by
    simp [handlers]
  rw [dispatch,get_name split,ok_bind,branch]
  exact xpHandler_words split sizeBits

/-- A line of blanks. -/
theorem dispatch_blank (sizeBits : Nat) {text : Text} (blank : words text = []) :
    dispatch sizeBits (tokenize 10 text) = .error .nullPointer := by
  have absent : (tokenize 10 text).get (words text).length = _ := Tokens.get_last (by simp [blank])
  rw [blank] at absent
  rw [dispatch,show (tokenize 10 text).get 0 = _ from absent]
  rfl

/-- The line that a round reads. -/
def lineOf (input : Text) : Text := chomp (fgets 63 input).1

/-- The lines that are interpreted are the empty one and those that have a word, `xp` only with a second
one. They are taken for what their words ask for. -/
theorem interpret_iff (sizeBits : Nat) (line : Text) (action : Action) :
    interpret sizeBits line = .ok action ↔ line = [] ∧ action = .nothing ∨
      line ≠ [] ∧ ∃ (name : String) (arguments : List Text), words line = name.toList :: arguments ∧
        (name = "xp" → arguments ≠ []) ∧ action = asked sizeBits name arguments := by
  rw [interpret]
  by_cases empty : line = []
  · simp [empty,eq_comm]
  rw [if_neg empty]
  simp only [empty,false_and,false_or,ne_eq,not_false_eq_true,true_and]
  cases split : words line with
  | nil =>
    rw [dispatch_blank sizeBits split]
    simp
  | cons word arguments =>
    have spelled : word = (String.ofList word).toList := String.toList_ofList.symm
    rw [spelled] at split ⊢
    generalize String.ofList word = name at split ⊢
    by_cases given : name = "xp" → arguments ≠ []
    · rw [dispatch_asked sizeBits split given]
      constructor
      · intro same
        exact ⟨name, arguments, rfl, given, (Except.ok.inj same).symm⟩
      · rintro ⟨name',arguments',same,_,rfl⟩
        obtain ⟨spelling,rfl⟩ := List.cons.inj same
        rw [String.toList_inj.mp spelling]
    · obtain ⟨rfl,missing⟩ := Classical.not_imp.mp given
      obtain rfl := not_not.mp missing
      rw [dispatch_xp sizeBits split]
      refine iff_of_false nofun ?_
      rintro ⟨name,arguments,same,given,_⟩
      obtain ⟨spelling,rfl⟩ := List.cons.inj same
      exact given (String.toList_inj.mp spelling).symm rfl

/-- What the round then does is up to the action. -/
theorem runMonitorLoop_eq [Platform] (sizeBits : Nat) (symbols : List Symbol) (files : Files) (s : State)
    {input : Text} (some : input ≠ []) (interprets : interpret sizeBits (lineOf input) = .ok action) :
    runMonitorLoop sizeBits symbols files s input =
      (action.perform sizeBits symbols files s).map
        fun s => (if action = .quit then 1 else 0,s,(fgets 63 input).2) := by
  rw [runMonitorLoop,if_neg some]
  dsimp only
  rw [show chomp (fgets 63 input).1 = lineOf input from rfl,interprets,ok_bind]
  cases action.perform sizeBits symbols files s <;> rfl

end Emuriscv.Monitor
