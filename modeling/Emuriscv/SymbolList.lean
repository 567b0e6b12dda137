import Emuriscv.Monitor
import Mathlib.Order.Bounds.Basic

/-! The list of symbols that `add_symbol` of `run_linux.c` builds node by node, and the walk of
`get_symbol` along its links. The walk stops at the last node whatever the address, and its
candidate is the node before. -/
namespace Emuriscv.Monitor

/-- A `symbol`; a pointer is the number of its allocation. -/
structure SymbolNode where
  symbol : Symbol
  next : Option Nat

abbrev SymbolHeap := List SymbolNode

/-- `mallocz` leaves `next` NULL. -/
def addSymbol (heap : SymbolHeap) (tail : Option Nat) (offset : Word) (name : String) :
    SymbolHeap × Nat :=
  let current := heap.length
  let heap := heap ++ [⟨⟨offset,name⟩,none⟩]
  match tail with
  | none => (heap,current)
  | some tail => (heap.modify tail fun node => { node with next := some current }, current)

/-- The calls of `initialize_symbols`, each with the pointer that the call before returned. -/
def addSymbols (heap : SymbolHeap) (tail : Option Nat) : List Symbol → SymbolHeap
  | [] => heap
  | symbol :: rest =>
    let (heap,current) := addSymbol heap tail symbol.offset symbol.name
    addSymbols heap (some current) rest

/-- `symbol_list`: the first call has no tail, and returns the head. -/
def symbolList (heap : SymbolHeap) (symbols : List Symbol) : SymbolHeap × Option Nat :=
  (addSymbols heap none symbols, if symbols = [] then none else some heap.length)

def getSymbolLoop (heap : SymbolHeap) (address : Word) : Nat → Nat → Nat → Except Stop Nat
  | 0, _, _ => throw .diverges
  | rounds + 1, current, candidate =>
    match heap[current]? with
    | none => throw .outOfBounds
    | some node =>
      match node.next with
      | none => pure candidate
      | some next =>
        if node.symbol.offset ≤ address then getSymbolLoop heap address rounds next current
        else pure candidate

/-- `get_symbol` on the nodes; no list in the heap is longer than the heap. -/
def getSymbolNode (heap : SymbolHeap) (symbolHead : Option Nat) (address : Word) : Except Stop Nat :=
  match symbolHead with
  | none => throw .nullPointer
  | some head => getSymbolLoop heap address heap.length head head

/-- The list takes the heap from `base` on, one node behind the other. -/
structure Chain (heap : SymbolHeap) (base : Nat) (symbols : List Symbol) : Prop where
  size : heap.length = base + symbols.length
  node : ∀ i symbol, symbols[i]? = some symbol →
    heap[base + i]? = some ⟨symbol, if i + 1 < symbols.length then some (base + i + 1) else none⟩

section Chain

variable {heap : SymbolHeap} {base : Nat} {symbols : List Symbol}

theorem chain_single (heap : SymbolHeap) (symbol : Symbol) :
    Chain (addSymbol heap none symbol.offset symbol.name).1 heap.length [symbol] where
  size := by simp [addSymbol]
  node := by
    rintro (_ | i) found here
    · obtain rfl := Option.some.inj here
      simp [addSymbol]
    · simp at here

/-- A node is put behind the last one, which is linked to it. -/
theorem Chain.snoc (chain : Chain heap base symbols) (filled : symbols ≠ []) (symbol : Symbol) :
    Chain (addSymbol heap (some (base + symbols.length - 1)) symbol.offset symbol.name).1 base
      (symbols ++ [symbol]) where
  size := by simp [addSymbol,chain.size,Nat.add_assoc]
  node := by
    have positive := List.length_pos_iff.mpr filled
    intro i found here
    rw [addSymbol]
    dsimp only
    rw [List.getElem?_modify,List.length_append,List.length_singleton]
    rcases Nat.lt_trichotomy i symbols.length with before | rfl | beyond
    · rw [List.getElem?_append_left before] at here
      rw [List.getElem?_append_left (by rw [chain.size]; omega),chain.node i found here,chain.size]
      by_cases last : i + 1 = symbols.length
      · simp [← last,Nat.add_assoc]
      · have earlier : ¬base + symbols.length - 1 = base + i := by omega
        simp [earlier,before,show i + 1 < symbols.length by omega]
    · rw [List.getElem?_append_right (Nat.le_refl _),Nat.sub_self] at here
      obtain rfl := Option.some.inj here
      have fresh : ¬base + symbols.length - 1 = base + symbols.length := by omega
      rw [← chain.size] at fresh ⊢
      simp [fresh]
    · rw [List.getElem?_eq_none (by simp; omega)] at here
      contradiction

theorem addSymbols_chain (chain : Chain heap base symbols) (filled : symbols ≠ [])
    (rest : List Symbol) :
    Chain (addSymbols heap (some (base + symbols.length - 1)) rest) base (symbols ++ rest) := by
  induction rest generalizing heap symbols with
  | nil => simpa [addSymbols] using chain
  | cons symbol rest ih =>
    have next := ih (chain.snoc filled symbol) (by simp)
    have last : base + (symbols ++ [symbol]).length - 1 = heap.length := by
      simp [chain.size]
    rw [last,List.append_assoc] at next
    exact next

theorem symbolList_chain (heap : SymbolHeap) (symbols : List Symbol) :
    Chain (symbolList heap symbols).1 heap.length symbols := by
  cases symbols with
  | nil => exact ⟨rfl, by simp⟩
  | cons head rest => exact addSymbols_chain (chain_single heap head) (by simp) rest

/-- The walk along the links is the walk along the list. -/
theorem getSymbolLoop_chain (chain : Chain heap base symbols) (address : Word) {p rest : List Symbol}
    {current : Symbol} (split : symbols = p ++ current :: rest) {candidate : Nat}
    {found : Symbol} {next : Option Nat} (here : heap[candidate]? = some ⟨found,next⟩)
    {rounds : Nat} (enough : rest.length < rounds) :
    ∃ i next, getSymbolLoop heap address rounds (base + p.length) candidate = .ok i ∧
      heap[i]? = some ⟨getSymbolFrom address found (current :: rest), next⟩ := by
  induction rest generalizing p current candidate found next rounds with
  | nil =>
    obtain ⟨rounds,rfl⟩ := Nat.exists_eq_succ_of_ne_zero (Nat.ne_of_gt enough)
    have node := chain.node p.length current (by simp [split])
    rw [if_neg (by simp [split])] at node
    refine ⟨candidate, next, ?_, here⟩
    rw [getSymbolLoop,node]
    rfl
  | cons second rest ih =>
    obtain ⟨rounds,rfl⟩ := Nat.exists_eq_succ_of_ne_zero (Nat.ne_of_gt (Nat.zero_lt_of_lt enough))
    have node := chain.node p.length current (by simp [split])
    rw [if_pos (by simp [split])] at node
    rw [getSymbolLoop,node,getSymbolFrom]
    · dsimp only
      split
      next =>
        have further := ih (split.trans (List.append_cons ..)) node (Nat.lt_of_succ_lt_succ enough)
        simpa [Nat.add_assoc] using further
      next => exact ⟨candidate,next,rfl,here⟩
    · simp

end Chain

/-- `get_symbol` of a list that has been built is that of the list of its symbols. -/
theorem getSymbolNode_built (heap : SymbolHeap) (symbols : List Symbol) (address : Word)
    {found : Symbol} (known : getSymbol symbols address = .ok found) :
    ∃ i next, getSymbolNode (symbolList heap symbols).1 (symbolList heap symbols).2 address = .ok i ∧
      (symbolList heap symbols).1[i]? = some ⟨found,next⟩ := by
  have chain := symbolList_chain heap symbols
  cases symbols with
  | nil => contradiction
  | cons head rest =>
    obtain rfl := Except.ok.inj known
    have first := chain.node 0 head rfl
    exact getSymbolLoop_chain chain address (p := []) rfl first (by rw [chain.size,List.length_cons]; omega)

/-- The symbol is in the list, and its offset is the greatest that does not exceed the address. -/
structure SymbolOf (symbols : List Symbol) (address : Word) (found : Symbol) : Prop where
  listed : found ∈ symbols
  greatest : IsGreatest {offset | (∃ symbol ∈ symbols, symbol.offset = offset) ∧ offset ≤ address}
    found.offset

/-- The offsets grow strictly, from 0 on. -/
structure Ordered (symbols : List Symbol) : Prop where
  first : ∃ head, symbols.head? = some head ∧ head.offset = 0
  grows : symbols.Pairwise (·.offset < ·.offset)

section SymbolOf

variable {symbols : List Symbol} {address : Word} {found : Symbol}

theorem symbolOf_head {head : Symbol} (below : head.offset ≤ address)
    (above : ∀ symbol ∈ symbols, address < symbol.offset) : SymbolOf (head :: symbols) address head where
  listed := List.mem_cons_self
  greatest := by
    refine ⟨⟨⟨head,List.mem_cons_self,rfl⟩,below⟩, ?_⟩
    rintro _ ⟨⟨symbol,member,rfl⟩,near⟩
    rcases List.mem_cons.mp member with rfl | member
    · exact BitVec.le_refl _
    · exact absurd near (BitVec.not_le.mpr (above symbol member))

theorem SymbolOf.cons (symbolOf : SymbolOf symbols address found) {head : Symbol}
    (low : head.offset ≤ found.offset) : SymbolOf (head :: symbols) address found where
  listed := List.mem_cons_of_mem _ symbolOf.listed
  greatest := by
    obtain ⟨⟨_,below⟩,bound⟩ := symbolOf.greatest
    refine ⟨⟨⟨found,List.mem_cons_of_mem _ symbolOf.listed,rfl⟩,below⟩, ?_⟩
    rintro _ ⟨⟨symbol,member,rfl⟩,near⟩
    rcases List.mem_cons.mp member with rfl | member
    · exact low
    · exact bound ⟨⟨symbol,member,rfl⟩,near⟩

/-- With a further symbol behind the others, the answer stays right exactly before it. -/
theorem SymbolOf.snoc_iff (symbolOf : SymbolOf symbols address found) {last : Symbol}
    (after : ∀ symbol ∈ symbols, symbol.offset < last.offset) :
    SymbolOf (symbols ++ [last]) address found ↔ address < last.offset := by
  constructor
  · intro whole
    refine BitVec.not_le.mp fun near => ?_
    have beyond := whole.greatest.2 ⟨⟨last,by simp,rfl⟩,near⟩
    exact BitVec.not_le.mpr (after found symbolOf.listed) beyond
  · intro before
    obtain ⟨⟨_,below⟩,bound⟩ := symbolOf.greatest
    refine ⟨List.mem_append_left _ symbolOf.listed,
      ⟨⟨found,List.mem_append_left _ symbolOf.listed,rfl⟩,below⟩, ?_⟩
    rintro _ ⟨⟨symbol,member,rfl⟩,near⟩
    rcases List.mem_append.mp member with member | member
    · exact bound ⟨⟨symbol,member,rfl⟩,near⟩
    · rw [List.mem_singleton.mp member] at near
      exact absurd near (BitVec.not_le.mpr before)

/-- The walk looks at the offset of every node but the last. -/
theorem getSymbolFrom_symbolOf {candidate : Symbol} (below : candidate.offset ≤ address)
    (grows : (candidate :: symbols).Pairwise (·.offset < ·.offset)) :
    SymbolOf (candidate :: symbols.dropLast) address (getSymbolFrom address candidate symbols) := by
  induction symbols generalizing candidate with
  | nil => exact symbolOf_head below (by simp)
  | cons current rest ih =>
    cases rest with
    | nil => exact symbolOf_head below (by simp)
    | cons second rest =>
      obtain ⟨first,later⟩ := List.pairwise_cons.mp grows
      rw [getSymbolFrom,List.dropLast_cons_cons]
      · split
        next reached =>
          have rest := ih reached later
          have above := rest.greatest.2 ⟨⟨current,List.mem_cons_self,rfl⟩,reached⟩
          exact rest.cons (BitVec.le_of_lt (Nat.lt_of_lt_of_le (first _ List.mem_cons_self) above))
        next short =>
          refine symbolOf_head below fun symbol member => ?_
          have beyond := BitVec.not_le.mp short
          rcases List.mem_cons.mp member with rfl | member
          · exact beyond
          · exact BitVec.lt_trans beyond
              ((List.pairwise_cons.mp later).1 symbol (List.dropLast_subset _ member))
      · simp

end SymbolOf

/-- `get_symbol` of the list that `add_symbol` has built finds the symbol of the address. -/
def FindsSymbol (heap : SymbolHeap) (symbols : List Symbol) (address : Word) : Prop :=
  ∃ i next found, getSymbolNode (symbolList heap symbols).1 (symbolList heap symbols).2 address = .ok i ∧
    (symbolList heap symbols).1[i]? = some ⟨found,next⟩ ∧ SymbolOf symbols address found

/-- The last symbol of several is never found, not even for its own address. -/
theorem findsSymbol_iff (heap : SymbolHeap) {symbols : List Symbol} (ordered : Ordered symbols)
    (address : Word) : FindsSymbol heap symbols address ↔
      symbols.length = 1 ∨ ∃ last, symbols.getLast? = some last ∧ address < last.offset := by
  obtain ⟨⟨head,starts,zero⟩,grows⟩ := ordered
  obtain ⟨rest,rfl⟩ := List.head?_eq_some_iff.mp starts
  have below : head.offset ≤ address := by
    rw [zero]
    exact BitVec.not_lt.mp BitVec.not_lt_zero
  obtain ⟨i,next,walked,here⟩ := getSymbolNode_built heap (head :: rest) address rfl
  have finds : FindsSymbol heap (head :: rest) address ↔
      SymbolOf (head :: rest) address (getSymbolFrom address head (head :: rest)) := by
    constructor
    · rintro ⟨j,_,found,again,there,symbolOf⟩
      obtain rfl := Except.ok.inj (walked.symm.trans again)
      obtain ⟨rfl,_⟩ := SymbolNode.mk.inj (Option.some.inj (here.symm.trans there))
      exact symbolOf
    · intro symbolOf
      exact ⟨i, next, _, walked, here, symbolOf⟩
  rw [finds]
  rcases List.eq_nil_or_concat rest with rfl | ⟨init,last,concat⟩
  · exact iff_of_true (symbolOf_head below (by simp)) (Or.inl rfl)
  · obtain rfl : rest = init ++ [last] := concat.trans List.concat_eq_append
    have first : getSymbolFrom address head (head :: (init ++ [last])) =
        getSymbolFrom address head (init ++ [last]) := by
      rw [getSymbolFrom,if_pos below]
      simp
    have partly := getSymbolFrom_symbolOf below grows
    rw [List.dropLast_concat] at partly
    have after := (List.pairwise_append.mp (show (head :: init ++ [last]).Pairwise _ from grows)).2.2
    have final : (head :: init ++ [last]).getLast? = some last := List.getLast?_concat
    rw [first,← List.cons_append,partly.snoc_iff fun symbol member => after symbol member last (by simp),
      final]
    simp

/-- The first symbols of the firmware. -/
def firmwareSymbols : List Symbol := [⟨0,"UNKNOWN"⟩,⟨0x80000000,"_ftext"⟩,⟨0x80000004,"trap_vector"⟩]

theorem findsSymbol_ftext : FindsSymbol [] firmwareSymbols 0x80000000 :=
  (findsSymbol_iff [] ⟨⟨_,rfl,rfl⟩, by simp [firmwareSymbols]⟩ _).mpr (.inr ⟨_,rfl,by decide⟩)

/-- At the offset of the last symbol, the one before it is found. -/
theorem last_missed :
    getSymbolNode (symbolList [] firmwareSymbols).1 (symbolList [] firmwareSymbols).2 0x80000004 =
        .ok 1 ∧ (symbolList [] firmwareSymbols).1[1]? = some ⟨⟨0x80000000,"_ftext"⟩,some 2⟩ ∧
      ¬FindsSymbol [] firmwareSymbols 0x80000004 := by
  have walked : getSymbolNode (symbolList [] firmwareSymbols).1 (symbolList [] firmwareSymbols).2
      0x80000004 = .ok 1 := rfl
  have here : (symbolList [] firmwareSymbols).1[1]? = some ⟨⟨0x80000000,"_ftext"⟩,some 2⟩ := rfl
  refine ⟨walked, here, ?_⟩
  rintro ⟨i,next,found,again,there,symbolOf⟩
  obtain rfl := Except.ok.inj (walked.symm.trans again)
  obtain ⟨rfl,_⟩ := SymbolNode.mk.inj (Option.some.inj (here.symm.trans there))
  have beyond := symbolOf.greatest.2
    ⟨⟨⟨0x80000004,"trap_vector"⟩,by simp [firmwareSymbols],rfl⟩,BitVec.le_refl _⟩
  exact absurd beyond (by decide)

end Emuriscv.Monitor
