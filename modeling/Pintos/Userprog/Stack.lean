import Pintos.Lib.TokenLoop
import Pintos.Library.Bytes
import Pintos.Vm.Ownership

/-!
# The initial stack

`setup_stack` of `userprog/process.c`. It works on kernel memory, where the command line
and a copy of it are, and on the memory of the process, which is reached through its page
directory. The pages of the user pool are not among the kernel memory of the model: they
are the frames of `Paging.Vm`.
-/

namespace Pintos.Stack

open Library Library.Prog Library.Bytes Paging Strings

/-! ### Memory -/

/-- Where in its page an address is. -/
def offsetOf (a : ℕ) : Fin pgsize := ⟨a % pgsize, Nat.mod_lt a (by decide)⟩

/-- The page of an address below `PHYS_BASE`. -/
def pageAt (a : ℕ) (ha : a < physBase) : Page := ⟨a / pgsize, Nat.div_lt_of_lt_mul (show a < pgsize * 0xc0000 from ha)⟩

/-- The machine, as far as `setup_stack` sees it. -/
structure Machine where
  vm : Vm
  /-- The running process. -/
  current : Pid
  /-- Memory from `PHYS_BASE` on. -/
  kernel : Mem
  /-- `process_stack` of the thread. -/
  processStack : ℕ

namespace Machine

variable (s : Machine)

/-- The page table entry for an address below `PHYS_BASE`. -/
def pte (a : ℕ) : Pte :=
  match pageOf a with
  | some pg => s.vm.pagedir s.current pg
  | none => Pte.zero

/-- A byte of memory; where no page is present there is none. -/
def byte (a : ℕ) : UInt8 :=
  if physBase ≤ a then s.kernel a
  else if (s.pte a).present then s.vm.memory (s.pte a).frame (offsetOf a)
  else 0

def readable (a : ℕ) : Bool := decide (physBase ≤ a) || (s.pte a).present

def writable (a : ℕ) : Bool := decide (physBase ≤ a) || ((s.pte a).present && (s.pte a).writable)

/-- A store; one to a page of the process sets its accessed and its dirty bit. -/
def store (a : ℕ) (v : UInt8) : Machine :=
  if physBase ≤ a then { s with kernel := Function.update s.kernel a v }
  else
    match pageOf a with
    | some pg => { s with
        vm := (s.vm.poke (s.vm.pagedir s.current pg).frame (offsetOf a) v).setPte s.current pg
          fun e => { e with accessed := true, dirty := true } }
    | none => s

/-- **No two pages of the process share a frame.** -/
def OwnFrames : Prop := ∀ pg pg', (s.vm.pagedir s.current pg).present = true → (s.vm.pagedir s.current pg').present = true →
  (s.vm.pagedir s.current pg).frame = (s.vm.pagedir s.current pg').frame → pg = pg'

end Machine

/-! ### Stores -/

section

variable {s : Machine} {a x : ℕ} {v : UInt8}

theorem pageOf_eq (ha : a < physBase) : pageOf a = some (pageAt a ha) :=
  dif_pos (Nat.div_lt_of_lt_mul (show a < pgsize * 0xc0000 from ha))

theorem Machine.pte_eq (ha : a < physBase) : s.pte a = s.vm.pagedir s.current (pageAt a ha) := by
  rw [Machine.pte, pageOf_eq ha]

theorem Machine.store_kernel (ha : physBase ≤ a) : s.store a v = { s with kernel := Function.update s.kernel a v } := if_pos ha

theorem Machine.store_user (ha : a < physBase) : s.store a v = { s with
    vm := (s.vm.poke (s.pte a).frame (offsetOf a) v).setPte s.current (pageAt a ha)
      fun e => { e with accessed := true, dirty := true } } := by
  rw [Machine.store, if_neg (Nat.not_le.2 ha), pte_eq ha, pageOf_eq ha]

/-- A store to a page is the store of the processor. -/
theorem Machine.store_vm (ha : a < physBase) (hw : s.writable a = true) :
    some (s.store a v).vm = next (.store s.current (pageAt a ha) (offsetOf a) v) s.vm := by
  have hboth : (s.pte a).present = true ∧ (s.pte a).writable = true := by
    simpa [Machine.writable, Nat.not_le.2 ha] using hw
  rw [pte_eq ha] at hboth
  rw [store_user ha, next, if_pos hboth, pte_eq ha]

/-- What a store leaves of the page directories. -/
theorem Machine.pagedir_store (s : Machine) (a : ℕ) (v : UInt8) (q : Pid) (pg : Page) :
    ((s.store a v).vm.pagedir q pg).frame = (s.vm.pagedir q pg).frame ∧
      ((s.store a v).vm.pagedir q pg).present = (s.vm.pagedir q pg).present ∧
        ((s.store a v).vm.pagedir q pg).writable = (s.vm.pagedir q pg).writable := by
  rcases Nat.lt_or_ge a physBase with ha | ha
  · rw [store_user ha]
    dsimp only [Vm.setPte, Vm.poke]
    by_cases hq : q = s.current
    · subst hq
      rw [Function.update_self]
      by_cases hpg : pg = pageAt a ha
      · subst hpg
        rw [Function.update_self]
        exact ⟨rfl, rfl, rfl⟩
      · rw [Function.update_of_ne hpg]
        exact ⟨rfl, rfl, rfl⟩
    · rw [Function.update_of_ne hq]
      exact ⟨rfl, rfl, rfl⟩
  · rw [store_kernel ha]
    exact ⟨rfl, rfl, rfl⟩

theorem Machine.current_store (s : Machine) (a : ℕ) (v : UInt8) : (s.store a v).current = s.current := by
  rcases Nat.lt_or_ge a physBase with ha | ha
  · rw [store_user ha]
  · rw [store_kernel ha]

theorem Machine.pte_store (s : Machine) (a : ℕ) (v : UInt8) (x : ℕ) : ((s.store a v).pte x).frame = (s.pte x).frame ∧
    ((s.store a v).pte x).present = (s.pte x).present ∧ ((s.store a v).pte x).writable = (s.pte x).writable := by
  unfold Machine.pte
  rw [Machine.current_store]
  cases pageOf x with
  | none => exact ⟨rfl, rfl, rfl⟩
  | some pg => exact s.pagedir_store a v s.current pg

theorem Machine.OwnFrames.store (h : s.OwnFrames) : (s.store a v).OwnFrames := by
  intro pg pg'
  obtain ⟨hf, hp, -⟩ := s.pagedir_store a v s.current pg
  obtain ⟨hf', hp', -⟩ := s.pagedir_store a v s.current pg'
  rw [s.current_store, hf, hp, hf', hp']
  exact h pg pg'

/-- **A store changes one byte** of what the process and the kernel see. -/
theorem Machine.byte_store (h : s.OwnFrames) (hw : s.writable a = true) : (s.store a v).byte = Function.update s.byte a v := by
  funext x
  obtain ⟨hframe, hpres, -⟩ := s.pte_store a v x
  unfold Machine.byte
  rw [hframe, hpres]
  rcases Nat.lt_or_ge a physBase with ha | ha
  · have hboth : (s.pte a).present = true ∧ (s.pte a).writable = true := by
      simpa [Machine.writable, Nat.not_le.2 ha] using hw
    rw [store_user ha]
    by_cases hx : x = a
    · subst hx
      rw [Function.update_self, if_neg (Nat.not_le.2 ha), if_pos hboth.1]
      simp [Vm.setPte, Vm.poke]
    · rw [Function.update_of_ne hx]
      rcases Nat.lt_or_ge x physBase with hxp | hxp
      · rw [if_neg (Nat.not_le.2 hxp), if_neg (Nat.not_le.2 hxp)]
        by_cases hp : (s.pte x).present = true
        · rw [if_pos hp, if_pos hp]
          dsimp only [Vm.setPte, Vm.poke]
          by_cases hf : (s.pte x).frame = (s.pte a).frame
          · rw [hf, Function.update_self, Function.update_of_ne]
            -- the same place in the same page would be the same address
            intro ho
            rw [pte_eq hxp] at hp hf
            rw [pte_eq ha] at hboth hf
            have hpage := congrArg Fin.val (h _ _ hp hboth.1 hf)
            have hoff := congrArg Fin.val ho
            dsimp only [pageAt, offsetOf] at hpage hoff
            exact hx (by rw [← Nat.div_add_mod x pgsize, ← Nat.div_add_mod a pgsize, hpage, hoff])
          · rw [Function.update_of_ne hf]
        · rw [if_neg hp, if_neg hp]
      · rw [if_pos hxp, if_pos hxp]
  · rw [store_kernel ha]
    by_cases hx : x = a
    · subst hx
      rw [Function.update_self, if_pos ha]
      exact Function.update_self ..
    · rw [Function.update_of_ne hx]
      dsimp only
      rw [Function.update_of_ne hx]

end

instance machineAccess : LawfulAccess Machine where
  byte := Machine.byte
  readable := Machine.readable
  writable := Machine.writable
  store := Machine.store
  Sound := Machine.OwnFrames
  sound_store _ hs _ := hs.store
  byte_store _ hs hw := Machine.byte_store hs hw
  readable_store {s} a v _ _ := by
    funext x
    unfold Machine.readable
    rw [(s.pte_store a v x).2.1]
  writable_store {s} a v _ _ := by
    funext x
    unfold Machine.writable
    rw [(s.pte_store a v x).2.1, (s.pte_store a v x).2.2]

/-! ### `setup_stack` -/

/-- The page below `PHYS_BASE`. -/
def topPage : Page := ⟨0xbffff, by decide⟩

/-- The delimiters of `setup_stack`. -/
def space : CString := ⟨[32], by decide⟩

section Programs

variable {σ : Type} [Access σ]

/-- `*(uint32_t *) a = w`. -/
def storeWord (a w : ℕ) : MemM σ Unit := do
  storeByte a (byteOf w 0)
  storeByte (a + 1) (byteOf w 1)
  storeByte (a + 2) (byteOf w 2)
  storeByte (a + 3) (byteOf w 3)

/-- The body of the first loop: `argc` and `arglength`. -/
def countToken (fuel token : ℕ) (x : ℕ × ℕ) : MemM σ (ℕ × ℕ) := do
  let length ← strlen fuel token
  pure (x.1 + 1, x.2 + (length + 1))

/-- The body of the second loop: `jinesp` and `temp`. -/
def putToken (fuel token2 : ℕ) (x : ℕ × ℤ) : MemM σ (ℕ × ℤ) := do
  storeWord x.1 (x.1 + x.2).toNat
  let length ← strlen fuel token2
  let _ ← strlcpy fuel (x.1 + x.2).toNat token2 (length + 1)
  let length ← strlen fuel token2
  pure (x.1 + 4, x.2 - 4 + (length + 1))

/-- What is put on the stack from `jinesp` on. -/
def putArguments (fuel fnCopy jinesp argc : ℕ) : MemM σ Unit := do
  storeWord jinesp 0
  storeWord (jinesp + 4) argc
  storeWord (jinesp + 8) (jinesp + 8 + 4)
  let (jinesp, _) ← forTokens fuel space (putToken fuel) fuel fnCopy 0 (jinesp + 12, 4 * (argc + 1) + 1)
  storeWord jinesp 0
  storeByte (jinesp + 4) 0

end Programs

/-- `setup_stack`, once the page is mapped: the stack pointer. -/
def fillStack (fuel fileName fnCopy : ℕ) : MemM Machine ℕ := do
  let (argc, arglength) ← forTokens fuel space (countToken fuel) fuel fileName 0 (0, 1)
  let jinesp := physBase - arglength - (argc + 1) * 4 - 12
  let esp := physBase - (arglength + 12 + (argc + 1) * 4)
  modify fun s => { s with processStack := esp }
  putArguments fuel fnCopy jinesp argc
  pure esp

/-- `allocate_frame`; for lack of a frame and of a slot it panics. -/
def allocateFrame (mem : Memory) (pg : Page) : MemM Machine (Option ℕ) := do
  let s ← gets id
  let (kpage, vm) ← orStop (s.vm.allocateFrame mem s.current pg) .assertion
  modify fun s => { s with vm := vm }
  pure kpage

/-- `setup_stack`: what it returns, and `*esp` then. What `palloc_get_page` returns for the copy is `page`; the `TID_ERROR`
without one is not false. -/
def setupStack (fuel : ℕ) (mem : Memory) (page : Option ℕ) (esp fileName : ℕ) : MemM Machine (Bool × ℕ) :=
  match page with
  | none => pure (true, esp)
  | some fnCopy => do
    let _ ← strlcpy fuel fnCopy fileName pgsize
    modify fun s => { s with vm := s.vm.allocatePage mem s.current topPage none true 0 }
    let kpage ← allocateFrame mem topPage
    let esp ← if kpage.isSome then fillStack fuel fileName fnCopy else pure esp
    -- `palloc_free_page (fn_copy)`
    modify fun s => { s with kernel := s.kernel.copy fnCopy pgsize fun _ => 0xcc }
    pure (kpage.isSome, esp)

/-! ### Words and strings -/

/-- The word at an address. -/
def wordAt (m : Mem) (a : ℕ) : ℕ := word fun i => m (a + i)

/-- The bytes that the strings take. -/
def room (args : List (List UInt8)) : ℕ := (args.map fun w => w.length + 1).sum

/-- All that `setup_stack` puts on the stack, in bytes. -/
def stackSize (args : List (List UInt8)) : ℕ := 1 + room args + 12 + (args.length + 1) * 4

/-- Where the string of an argument starts. -/
def argument (args : List (List UInt8)) (i : ℕ) : ℕ := physBase - room (args.drop i)

/-- **The initial stack**: a return address of zero, `argc`, a pointer to the array that follows, a pointer to each argument, and a
null pointer; above them the strings, one after the other up to `PHYS_BASE`. -/
structure InitialStack (args : List (List UInt8)) (esp : ℕ) (m : Mem) : Prop where
  returnAddress : wordAt m esp = 0
  argc : wordAt m (esp + 4) = args.length
  argv : wordAt m (esp + 8) = esp + 12
  arguments : ∃ address : ℕ → ℕ, esp + 12 + 4 * (args.length + 1) ≤ address 0 ∧ address args.length = physBase ∧
    ∀ i (h : i < args.length), wordAt m (esp + 12 + 4 * i) = address i ∧ m.Has (address i) (args[i] ++ [0]) ∧
      address i + (args[i].length + 1) = address (i + 1)
  null : wordAt m (esp + 12 + 4 * args.length) = 0

variable {m m' m₀ : Mem} {a b w n i esp : ℕ} {args : List (List UInt8)}

theorem word_congr {b b' : ℕ → UInt8} (h : ∀ i < 4, b i = b' i) : word b = word b' := by
  unfold word
  rw [h 0 (by decide), h 1 (by decide), h 2 (by decide), h 3 (by decide)]

theorem wordAt_congr (h : ∀ i < 4, m' (a + i) = m (a + i)) : wordAt m' a = wordAt m a := word_congr h

theorem wordAt_copy (hw : w < 2 ^ 32) : wordAt (m.copy a 4 (byteOf w)) a = w := by
  have hword := word_byteOf w
  rw [Nat.mod_eq_of_lt hw] at hword
  exact (word_congr fun i hi => Mem.copy_of_inside hi).trans hword

theorem room_append (x y : List (List UInt8)) : room (x ++ y) = room x + room y := by
  rw [room, List.map_append, List.sum_append]
  rfl

theorem room_cons (x : List UInt8) (xs : List (List UInt8)) : room (x :: xs) = x.length + 1 + room xs := by
  rw [room, List.map_cons, List.sum_cons]
  rfl

theorem room_drop (h : i < args.length) : room (args.drop i) = args[i].length + 1 + room (args.drop (i + 1)) := by
  rw [List.drop_eq_getElem_cons h, room_cons]

theorem room_drop_le (h : n ≤ i) : room (args.drop i) ≤ room (args.drop n) := by
  obtain ⟨d, rfl⟩ := Nat.exists_eq_add_of_le h
  have hsplit := room_append ((args.drop n).take d) ((args.drop n).drop d)
  rw [List.take_append_drop, List.drop_drop] at hsplit
  omega

/-- The strings of the words take no more than twice the string that they are cut from. -/
theorem room_words_le {p : UInt8 → Bool} (l : List UInt8) : room (words p l) ≤ 2 * l.length := by
  induction hlen : l.length using Nat.strong_induction_on generalizing l with
  | _ k ih =>
    by_cases h : l.dropWhile p = []
    · rw [words_of_nil h]
      exact Nat.zero_le _
    · have hsum := skipped_add_length (p := p) (l := l)
      have hrest := ih _ (hlen ▸ length_behindToken h) _ rfl
      have hbehind : (behindToken p l).length = (l.dropWhile p).length - (tokenLength p l + 1) := List.length_drop
      have hpos := tokenLength_pos h
      have hle := tokenLength_le (p := p) (l := l)
      have htake : ((l.dropWhile p).take (tokenLength p l)).length = tokenLength p l := List.length_take_of_le hle
      have hcons : room (words p l) = tokenLength p l + 1 + room (words p (behindToken p l)) := by
        rw [words_of_ne_nil h, room_cons, htake]
      omega

/-- The stack of a command line. -/
theorem stackSize_words_le {p : UInt8 → Bool} (l : List UInt8) : stackSize (words p l) ≤ 6 * l.length + 17 := by
  have hroom := room_words_le (p := p) l
  have hlen := length_words_le (p := p) l
  unfold stackSize
  omega

theorem argument_length : argument args args.length = physBase := by
  rw [argument, List.drop_length]
  rfl

/-- Where the stack is, when it ends at `PHYS_BASE`. -/
theorem stackSize_eq (h : esp + stackSize args = physBase) (hi : i ≤ args.length) :
    esp + 12 + 4 * (args.length + 1) + 1 ≤ argument args i ∧ argument args i + room (args.drop i) = physBase := by
  have hle : room (args.drop i) ≤ room (args.drop 0) := room_drop_le (Nat.zero_le i)
  rw [List.drop_zero] at hle
  unfold stackSize at h
  unfold argument
  omega

theorem argument_succ (h : esp + stackSize args = physBase) (hi : i < args.length) :
    argument args i + (args[i].length + 1) = argument args (i + 1) := by
  have h1 := (stackSize_eq h hi.le).2
  have h2 := (stackSize_eq (i := i + 1) h hi).2
  have hdrop := room_drop hi
  omega

theorem argument_le (h : n ≤ i) : argument args n ≤ argument args i := Nat.sub_le_sub_left (room_drop_le h) _

/-- The stack with the first `n` arguments. -/
structure Filling (args : List (List UInt8)) (esp n : ℕ) (m₀ m : Mem) : Prop where
  returnAddress : wordAt m esp = 0
  argc : wordAt m (esp + 4) = args.length
  argv : wordAt m (esp + 8) = esp + 12
  arguments : ∀ i (h : i < args.length), i < n → wordAt m (esp + 12 + 4 * i) = argument args i ∧ m.Has (argument args i) (args[i] ++ [0])
  below : ∀ x < esp, m x = m₀ x

/-- Memory from `PHYS_BASE` on does not matter. -/
theorem Filling.congr (h : Filling args esp n m₀ m) (hesp : esp + stackSize args = physBase) (hm : ∀ x < physBase, m' x = m x) :
    Filling args esp n m₀ m' := by
  have hsize : esp + 12 + 4 * (args.length + 1) + 1 ≤ physBase := by
    unfold stackSize at hesp
    omega
  have hword : ∀ a, a + 4 ≤ physBase → wordAt m' a = wordAt m a := fun a ha => wordAt_congr fun i hi => hm _ (by omega)
  refine ⟨?_, ?_, ?_, fun i hi hin => ⟨?_, ?_⟩, fun x hx => ?_⟩
  · rw [hword esp (by omega)]
    exact h.returnAddress
  · rw [hword (esp + 4) (by omega)]
    exact h.argc
  · rw [hword (esp + 8) (by omega)]
    exact h.argv
  · rw [hword (esp + 12 + 4 * i) (by omega)]
    exact (h.arguments i hi hin).1
  · refine (h.arguments i hi hin).2.congr fun x _ hlt => hm x ?_
    have hsucc := argument_succ hesp hi
    have hend := (stackSize_eq (i := i + 1) hesp hi).2
    rw [List.length_append, List.length_singleton] at hlt
    omega
  · rw [hm x (by omega)]
    exact h.below x hx

/-- **One argument more**: its pointer and its string. -/
theorem Filling.step (h : Filling args esp n m₀ m) (hesp : esp + stackSize args = physBase) (hn : n < args.length) :
    Filling args esp (n + 1) m₀
      (withString (m.copy (esp + 12 + 4 * n) 4 (byteOf (argument args n))) (argument args n) args[n]) := by
  have hat := stackSize_eq hesp hn.le
  have hsucc := argument_succ hesp hn
  have hend := (stackSize_eq (i := n + 1) hesp hn).2
  -- what is not overwritten
  have hkept : ∀ x, x < esp + 12 + 4 * n ∨ esp + 12 + 4 * n + 4 ≤ x ∧ x < argument args n ∨ argument args (n + 1) ≤ x →
      withString (m.copy (esp + 12 + 4 * n) 4 (byteOf (argument args n))) (argument args n) args[n] x = m x := by
    intro x hx
    rw [withString_of_outside (by omega), Mem.copy_of_outside (by omega)]
  refine ⟨?_, ?_, ?_, fun i hi hin => ?_, fun x hx => ?_⟩
  · rw [wordAt_congr fun i hi => hkept _ (by omega)]
    exact h.returnAddress
  · rw [wordAt_congr fun i hi => hkept _ (by omega)]
    exact h.argc
  · rw [wordAt_congr fun i hi => hkept _ (by omega)]
    exact h.argv
  · rcases Nat.lt_succ_iff_lt_or_eq.1 hin with hlt | rfl
    · obtain ⟨hword, hhas⟩ := h.arguments i hi hlt
      constructor
      · rw [wordAt_congr fun j hj => hkept _ (by omega)]
        exact hword
      · refine hhas.congr fun x hx hlt' => hkept x ?_
        have hi' := argument_succ hesp hi
        have hle : argument args (i + 1) ≤ argument args n := argument_le (Nat.succ_le_of_lt hlt)
        have hlow := (stackSize_eq hesp hi.le).1
        rw [List.length_append, List.length_singleton] at hlt'
        right
        omega
    · constructor
      · rw [wordAt_congr fun j hj => withString_of_outside (by omega)]
        have hphys : physBase = 0xc0000000 := rfl
        exact wordAt_copy (by omega)
      · exact withString_has _ _ _
  · rw [hkept x (by omega)]
    exact h.below x hx

/-- With all of them, the null pointer and a last zero byte, the stack is complete. -/
theorem Filling.done (h : Filling args esp args.length m₀ m) (hesp : esp + stackSize args = physBase)
    (hm : ∀ x < physBase, x < esp + 12 + 4 * args.length ∨ esp + 12 + 4 * (args.length + 1) + 1 ≤ x → m' x = m x)
    (hnull : wordAt m' (esp + 12 + 4 * args.length) = 0) : InitialStack args esp m' ∧ ∀ x < esp, m' x = m₀ x := by
  have hsize := (stackSize_eq hesp (Nat.zero_le args.length)).1
  have htop := (stackSize_eq hesp (Nat.zero_le args.length)).2
  refine ⟨⟨?_, ?_, ?_, ⟨argument args, by omega, argument_length, fun i hi => ⟨?_, ?_, argument_succ hesp hi⟩⟩, hnull⟩, fun x hx => ?_⟩
  · rw [wordAt_congr fun i hi => hm _ (by omega) (by omega)]
    exact h.returnAddress
  · rw [wordAt_congr fun i hi => hm _ (by omega) (by omega)]
    exact h.argc
  · rw [wordAt_congr fun i hi => hm _ (by omega) (by omega)]
    exact h.argv
  · rw [wordAt_congr fun j hj => hm _ (by omega) (by omega)]
    exact (h.arguments i hi hi).1
  · have hat := (stackSize_eq hesp hi.le).1
    have hsucc := argument_succ hesp hi
    have hend := (stackSize_eq (i := i + 1) hesp hi).2
    refine (h.arguments i hi hi).2.congr fun x hx hlt => hm x ?_ (by omega)
    rw [List.length_append, List.length_singleton] at hlt
    omega
  · rw [hm x (by omega) (by omega)]
    exact h.below x hx

/-! ### The loops -/

section Specs

variable {σ : Type} [LawfulAccess σ] {s s₀ : σ} {E : MemFault → Prop} {fuel lo hi token : ℕ} {l : List UInt8}

/-- **A word is stored.** -/
theorem wp_storeWord {Q : Unit → σ → Prop} (hs : LawfulAccess.Sound s) (hw : WritableAt s a 4)
    (hQ : ∀ s', Leaves s ((Access.byte s).copy a 4 (byteOf w)) s' → Q () s') : wp (storeWord a w) Q E s := by
  rw [storeWord, wp_bind]
  refine wp_storeByte hs (hw 0 (by decide)) fun s₁ h₁ => ?_
  rw [wp_bind]
  refine wp_storeByte h₁.sound (h₁.writable ▸ hw 1 (by decide)) fun s₂ h₂ => ?_
  have h₂' := h₁.trans h₂
  rw [wp_bind]
  refine wp_storeByte h₂.sound (h₂'.writable ▸ hw 2 (by decide)) fun s₃ h₃ => ?_
  have h₃' := h₂'.trans h₃
  refine wp_storeByte h₃.sound (h₃'.writable ▸ hw 3 (by decide)) fun s₄ h₄ => hQ s₄ ?_
  have hmem : Function.update (Access.byte s₃) (a + 3) (byteOf w 3) = (Access.byte s).copy a 4 (byteOf w) := by
    rw [h₃.byte, h₂.byte, h₁.byte]
    funext x
    unfold Mem.copy
    by_cases hx : a ≤ x ∧ x < a + 4
    · rw [if_pos hx]
      obtain rfl | rfl | rfl | rfl : x = a ∨ x = a + 1 ∨ x = a + 2 ∨ x = a + 3 := by omega
      · simp
      · simp
      · simp
      · simp
    · rw [if_neg hx]
      simp [Function.update_of_ne (show x ≠ a by omega), Function.update_of_ne (show x ≠ a + 1 by omega),
        Function.update_of_ne (show x ≠ a + 2 by omega), Function.update_of_ne (show x ≠ a + 3 by omega)]
  rw [← hmem]
  exact h₃'.trans h₄

/-- **The first loop** counts the arguments, and the bytes that their strings take. -/
theorem countTokens_spec {n : ℕ} (hs : LawfulAccess.Sound s) (h : StringAt s a l) (hw : WritableAt s a l.length) (ha : a ≠ 0)
    (hf : l.length < fuel) (hn : (words (delimits space) l).length < n) :
    wp (forTokens fuel space (countToken fuel) n a 0 (0, 1))
      (fun r s' => r = ((words (delimits space) l).length, 1 + room (words (delimits space) l)) ∧
        Strings.Untouched (fun y => y < a ∨ a + l.length < y) s s') (fun _ => False) s := by
  refine wp_post (forTokens_spec
    (P := fun ws (x : ℕ × ℕ) s' => x.1 + ws.length = (words (delimits space) l).length ∧
      x.2 + room ws = 1 + room (words (delimits space) l) ∧ Strings.Untouched (fun y => y < a ∨ a + l.length < y) s s') ?_ ?_ hs h hw ha le_rfl
    le_rfl hf hn (if_neg ha) ⟨Nat.zero_add _, rfl, .refl hs⟩) ?_
  · rintro ws x s₁ s₂ ⟨hcount, hroom, hu⟩ hu'
    exact ⟨hcount, hroom, hu.trans hu' fun _ => id⟩
  · rintro w ws token x s₁ ⟨hcount, hroom, hu⟩ hs₁ htoken h0 - - hlen
    rw [countToken, wp_bind]
    refine wp_post (strlen_spec htoken hlen h0) fun r s₂ hpost => ?_
    obtain ⟨hr, hs₂⟩ := hpost
    subst hr
    subst hs₂
    rw [List.length_cons] at hcount
    have hcons := room_cons w ws
    exact ⟨⟨by dsimp only; omega, by dsimp only; omega, hu⟩, .refl hs₁⟩
  · rintro ⟨argc, arglength⟩ s' ⟨⟨hcount, hroom, hu⟩, -⟩
    refine ⟨Prod.ext hcount hroom, hu⟩

/-- What the second loop keeps, when the words `ws` are left: `x` are `jinesp` and `temp`. -/
structure Putting (args : List (List UInt8)) (esp : ℕ) (m₀ : Mem) (s₀ : σ) (ws : List (List UInt8)) (x : ℕ × ℤ) (s : σ) : Prop where
  le : ws.length ≤ args.length
  rest : ws = args.drop (args.length - ws.length)
  jinesp : x.1 = esp + 12 + 4 * (args.length - ws.length)
  temp : x.1 + x.2 = argument args (args.length - ws.length)
  filling : Filling args esp (args.length - ws.length) m₀ (Access.byte s)
  leaves : Leaves s₀ (Access.byte s) s

/-- **One turn of the second loop.** -/
theorem putToken_spec {w : List UInt8} {ws : List (List UInt8)} {x : ℕ × ℤ} (hesp : esp + stackSize args = physBase)
    (hwr : WritableAt s₀ esp (stackSize args)) (h : Putting args esp m₀ s₀ (w :: ws) x s) (htoken : StringAt s token w)
    (hphys : physBase ≤ token) (hf : w.length < fuel) :
    wp (putToken fuel token x) (fun x' s' => Putting args esp m₀ s₀ ws x' s' ∧ Strings.Untouched (fun y => physBase ≤ y) s s')
      (fun _ => False) s := by
  have hle := h.le
  rw [List.length_cons] at hle
  obtain ⟨k, hk⟩ : ∃ k, k + 1 + ws.length = args.length := ⟨args.length - (ws.length + 1), by omega⟩
  have hcons : args.length - (w :: ws).length = k := by
    rw [List.length_cons]
    omega
  have hlt : k < args.length := by omega
  have hrest := h.rest
  rw [hcons, List.drop_eq_getElem_cons hlt] at hrest
  obtain ⟨hw, hws⟩ := List.cons.inj hrest
  have hjin := h.jinesp
  have htemp := h.temp
  have hfill := h.filling
  rw [hcons] at hjin htemp hfill
  have hat := stackSize_eq hesp hlt.le
  have hsucc := argument_succ hesp hlt
  have hend := (stackSize_eq (i := k + 1) hesp hlt).2
  rw [← hw] at hsucc
  have hdst : (x.1 + x.2).toNat = argument args k := by omega
  have hwritable : ∀ b n, esp ≤ b → b + n ≤ physBase → WritableAt s b n := fun b n hb hbn i hi => by
    have hbi := hwr (b + i - esp) (by omega)
    rw [show esp + (b + i - esp) = b + i by omega] at hbi
    rw [h.leaves.writable]
    exact hbi
  have hphys0 : physBase = 0xc0000000 := rfl
  rw [putToken, hdst, wp_bind]
  refine wp_storeWord h.leaves.sound (hwritable _ _ (by omega) (by omega)) fun s₁ h₁ => ?_
  have hu₁ : Strings.Untouched (fun y => physBase ≤ y) s s₁ := .of_leaves h₁ fun y hy => Mem.copy_of_outside (by omega)
  have htoken₁ := htoken.untouched hu₁ fun y hy _ => hphys.trans hy
  rw [wp_bind]
  refine wp_post (strlen_spec htoken₁ hf (by omega)) fun r s₂ hpost => ?_
  obtain ⟨hr, hs₂⟩ := hpost
  subst hr
  subst hs₂
  rw [wp_bind]
  refine wp_post (strlcpy_spec h₁.sound htoken₁ hf (by omega) (by omega) (Nat.lt_succ_self _)
    (WritableAt.leaves (hwritable _ _ (by omega) (by omega)) h₁) (by omega)) fun _ s₃ hpost => ?_
  obtain ⟨_, h₃⟩ := hpost
  have hu₃ : Strings.Untouched (fun y => physBase ≤ y) s₂ s₃ := .of_leaves h₃ fun y hy => withString_of_outside (by omega)
  rw [wp_bind]
  refine wp_post (strlen_spec (htoken₁.untouched hu₃ fun y hy _ => hphys.trans hy) hf (by omega)) fun r s₄ hpost => ?_
  obtain ⟨hr, hs₄⟩ := hpost
  subst hr
  subst hs₄
  have hk' : args.length - ws.length = k + 1 := by omega
  have hstep := hfill.step hesp hlt
  rw [← hw, ← hjin, ← h₁.byte, ← h₃.byte] at hstep
  have hu := hu₁.trans hu₃ fun _ => id
  refine ⟨⟨by omega, ?_, ?_, ?_, ?_, h.leaves.trans hu.leaves⟩, hu⟩
  · rw [hk']
    exact hws
  · rw [hk', hjin]
    omega
  · rw [hk']
    push_cast
    omega
  · rw [hk']
    exact hstep

/-- **The second loop** puts the arguments on the stack. -/
theorem putTokens_spec {n : ℕ} (hs : LawfulAccess.Sound s) (h : StringAt s a l) (hw : WritableAt s a l.length) (hphys : physBase ≤ a)
    (hf : l.length < fuel) (hn : (words (delimits space) l).length < n) (hargs : words (delimits space) l = args)
    (hesp : esp + stackSize args = physBase) (hwr : WritableAt s esp (stackSize args)) (hfill : Filling args esp 0 m₀ (Access.byte s)) :
    wp (forTokens fuel space (putToken fuel) n a 0 (esp + 12, 4 * (args.length + 1) + 1))
      (fun x s' => x.1 = esp + 12 + 4 * args.length ∧ Filling args esp args.length m₀ (Access.byte s') ∧ Leaves s (Access.byte s') s')
      (fun _ => False) s := by
  have hphys0 : physBase = 0xc0000000 := rfl
  refine wp_post (forTokens_spec (P := Putting args esp m₀ s) ?_ ?_ hs h hw (by omega) le_rfl
    le_rfl hf hn (if_neg (by omega)) ?_) ?_
  · rintro ws x s₁ s₂ hP hu
    refine ⟨hP.le, hP.rest, hP.jinesp, hP.temp, hP.filling.congr hesp fun y hy => hu.byte y (by omega), hP.leaves.trans hu.leaves⟩
  · rintro w ws token x s₁ hP hs₁ htoken h0 hlo hhi hlen
    refine wp_post (putToken_spec hesp hwr hP htoken (hphys.trans hlo) hlen) fun x' s₂ hpost => ?_
    obtain ⟨hP', hu⟩ := hpost
    refine ⟨hP', hu.mono fun y hy => ?_⟩
    exact hphys.trans hy.1
  · rw [hargs]
    have hat := stackSize_eq hesp (Nat.zero_le args.length)
    have hroom : room (args.drop 0) = room args := rfl
    refine ⟨le_rfl, ?_, ?_, ?_, ?_, .refl hs⟩
    · rw [Nat.sub_self, List.drop_zero]
    · rw [Nat.sub_self]
    · rw [Nat.sub_self]
      unfold stackSize at hesp
      push_cast
      omega
    · rw [Nat.sub_self]
      exact hfill
  · rintro x s' ⟨hP, -⟩
    exact ⟨hP.jinesp, hP.filling, hP.leaves⟩

/-- **What is put on the stack** is the initial stack for the words, whatever is in memory from `PHYS_BASE` on. -/
theorem putArguments_spec (hs : LawfulAccess.Sound s) (h : StringAt s a l) (hw : WritableAt s a l.length) (hphys : physBase ≤ a)
    (hf : l.length < fuel) (hargs : words (delimits space) l = args) (hlen : args.length < 2 ^ 32)
    (hesp : esp + stackSize args = physBase) (hwr : WritableAt s esp (stackSize args)) :
    wp (putArguments fuel a esp args.length)
      (fun _ s' => ∀ m : Mem, (∀ x < physBase, m x = Access.byte s' x) → InitialStack args esp m ∧ ∀ x < esp, m x = Access.byte s x)
      (fun _ => False) s := by
  have hphys0 : physBase = 0xc0000000 := rfl
  have hsize : stackSize args = 1 + room args + 12 + (args.length + 1) * 4 := rfl
  have hwritable : ∀ b n, esp ≤ b → b + n ≤ physBase → WritableAt s b n := fun b n hb hbn i hi => by
    have hbi := hwr (b + i - esp) (by omega)
    rwa [show esp + (b + i - esp) = b + i by omega] at hbi
  rw [putArguments, wp_bind]
  refine wp_storeWord hs (hwritable _ _ (by omega) (by omega)) fun s₁ h₁ => ?_
  rw [wp_bind]
  refine wp_storeWord h₁.sound (WritableAt.leaves (hwritable _ _ (by omega) (by omega)) h₁) fun s₂ h₂ => ?_
  have h₂' := h₁.trans h₂
  rw [wp_bind]
  refine wp_storeWord h₂.sound (WritableAt.leaves (hwritable _ _ (by omega) (by omega)) h₂') fun s₃ h₃ => ?_
  have h₃' := h₂'.trans h₃
  have hfill : Filling args esp 0 (Access.byte s) (Access.byte s₃) := by
    rw [h₃.byte, h₂.byte, h₁.byte]
    refine ⟨?_, ?_, ?_, fun i hi hin => absurd hin (Nat.not_lt_zero i), fun x hx => ?_⟩
    · rw [wordAt_congr fun i hi => Mem.copy_of_outside (by omega), wordAt_congr fun i hi => Mem.copy_of_outside (by omega)]
      exact wordAt_copy (by decide)
    · rw [wordAt_congr fun i hi => Mem.copy_of_outside (by omega)]
      exact wordAt_copy hlen
    · exact wordAt_copy (by omega)
    · rw [Mem.copy_of_outside (by omega), Mem.copy_of_outside (by omega), Mem.copy_of_outside (by omega)]
  have hu : Strings.Untouched (fun y => physBase ≤ y) s s₃ := .of_leaves h₃' fun y hy => by
    rw [Mem.copy_of_outside (by omega), h₂.byte, Mem.copy_of_outside (by omega), h₁.byte, Mem.copy_of_outside (by omega)]
  have hwords := length_words_le (p := delimits space) l
  rw [wp_bind]
  refine wp_post (putTokens_spec h₃.sound (h.untouched hu fun y hy _ => hphys.trans hy) (hw.leaves h₃') hphys hf (by omega) hargs hesp
    (hwr.leaves h₃') hfill) fun x s₄ hpost => ?_
  obtain ⟨hx, hfill₄, h₄⟩ := hpost
  dsimp only
  have h₄' := h₃'.trans h₄
  rw [wp_bind, hx]
  refine wp_storeWord h₄.sound (WritableAt.leaves (hwritable _ _ (by omega) (by omega)) h₄') fun s₅ h₅ => ?_
  have h₅' := h₄'.trans h₅
  refine wp_storeByte h₅.sound (h₅'.writable ▸ hwritable (esp + 12 + 4 * args.length + 4) 1 (by omega) (by omega) 0 (by decide))
    fun s₆ h₆ => ?_
  have h0 : (Access.byte s₆) = Function.update ((Access.byte s₄).copy (esp + 12 + 4 * args.length) 4 (byteOf 0))
      (esp + 12 + 4 * args.length + 4) 0 := by
    rw [h₆.byte, h₅.byte]
  intro m hm
  refine hfill₄.done hesp (fun x hx hout => ?_) ?_
  · rw [hm x hx, h0, Function.update_of_ne (by omega), Mem.copy_of_outside (by omega)]
  · rw [wordAt_congr fun i hi => hm _ (by omega), h0, wordAt_congr fun i hi => Function.update_of_ne (by omega) ..]
    exact wordAt_copy (by decide)

end Specs

/-! ### What else is kept -/

section Stores

variable {σ : Type} [Access σ] {W : ℕ → Prop}

theorem storesIn_storeWord (hW : ∀ a, W a) (a w : ℕ) : StoresIn W (storeWord a w : MemM σ Unit) :=
  .bind (storesIn_storeByte (hW _) _) fun _ => .bind (storesIn_storeByte (hW _) _) fun _ =>
    .bind (storesIn_storeByte (hW _) _) fun _ => storesIn_storeByte (hW _) _

theorem storesIn_countToken (fuel token : ℕ) (x : ℕ × ℕ) : StoresIn W (countToken fuel token x : MemM σ (ℕ × ℕ)) :=
  .bind (storesIn_strlen _ _) fun _ => .pure _

theorem storesIn_putToken (hW : ∀ a, W a) (fuel token2 : ℕ) (x : ℕ × ℤ) : StoresIn W (putToken fuel token2 x : MemM σ (ℕ × ℤ)) :=
  .bind (storesIn_storeWord hW _ _) fun _ => .bind (storesIn_strlen _ _) fun _ =>
    .bind (storesIn_strlcpy (fun _ _ => hW _) _ _) fun _ => .bind (storesIn_strlen _ _) fun _ => .pure _

theorem storesIn_putArguments (hW : ∀ a, W a) (fuel fnCopy jinesp argc : ℕ) :
    StoresIn W (putArguments fuel fnCopy jinesp argc : MemM σ Unit) :=
  .bind (storesIn_storeWord hW _ _) fun _ => .bind (storesIn_storeWord hW _ _) fun _ => .bind (storesIn_storeWord hW _ _) fun _ =>
    .bind (storesIn_forTokens hW (storesIn_putToken hW fuel) _ _ _ _ _ _) fun x => .bind (storesIn_storeWord hW _ _) fun _ =>
      storesIn_storeByte (hW _) _

end Stores

variable {s s' k : Machine} {fuel fileName fnCopy : ℕ} {l : List UInt8} {v : UInt8}

/-- **The process writes to its own pages**: no other frame has changed, and of the page directories only accessed and dirty
bits. -/
structure OwnPages (k s : Machine) : Prop where
  current : s.current = k.current
  rest : s.vm = { k.vm with memory := s.vm.memory, pagedir := s.vm.pagedir }
  pagedir : ∀ q pg, (s.vm.pagedir q pg).frame = (k.vm.pagedir q pg).frame ∧
    (s.vm.pagedir q pg).present = (k.vm.pagedir q pg).present ∧ (s.vm.pagedir q pg).writable = (k.vm.pagedir q pg).writable
  frames : ∀ f, (∀ pg, (k.vm.pagedir k.current pg).present = true → (k.vm.pagedir k.current pg).frame ≠ f) →
    s.vm.memory f = k.vm.memory f

theorem OwnPages.refl (k : Machine) : OwnPages k k := ⟨rfl, rfl, fun _ _ => ⟨rfl, rfl, rfl⟩, fun _ _ => rfl⟩

theorem OwnPages.store (h : OwnPages k s) (hw : s.writable a = true) : OwnPages k (s.store a v) := by
  refine ⟨(s.current_store a v).trans h.current, ?_, fun q pg => ?_, fun f hf => ?_⟩
  · rcases Nat.lt_or_ge a physBase with ha | ha
    · rw [Machine.store_user ha]
      dsimp only [Vm.setPte, Vm.poke]
      rw [h.rest]
    · rw [Machine.store_kernel ha]
      exact h.rest
  · obtain ⟨hf, hp, hw⟩ := s.pagedir_store a v q pg
    rw [hf, hp, hw]
    exact h.pagedir q pg
  · rw [← h.frames f hf]
    rcases Nat.lt_or_ge a physBase with ha | ha
    · have hboth : (s.pte a).present = true ∧ (s.pte a).writable = true := by
        simpa [Machine.writable, Nat.not_le.2 ha] using hw
      rw [Machine.pte_eq ha, h.current, (h.pagedir k.current _).2.1] at hboth
      rw [Machine.store_user ha, Machine.pte_eq ha, h.current]
      dsimp only [Vm.setPte, Vm.poke]
      refine Function.update_of_ne ?_ _ _
      rw [(h.pagedir k.current _).1]
      exact (hf _ hboth.1).symm
    · rw [Machine.store_kernel ha]

theorem writableAt_kernel (ha : physBase ≤ a) (n : ℕ) : WritableAt s a n := fun i _ =>
  Bool.or_eq_true_iff.2 (.inl (decide_eq_true (ha.trans (Nat.le_add_right a i))))

theorem readableAt_kernel (ha : physBase ≤ a) (n : ℕ) : ReadableAt s a n := fun i _ =>
  Bool.or_eq_true_iff.2 (.inl (decide_eq_true (ha.trans (Nat.le_add_right a i))))

/-- Two machines with the same page directories and pages, and other kernel memory. -/
theorem byte_user {s s' : Machine} (hvm : s'.vm = s.vm) (hcurrent : s'.current = s.current) (ha : a < physBase) :
    s'.byte a = s.byte a := by
  unfold Machine.byte Machine.pte
  rw [if_neg (Nat.not_le.2 ha), if_neg (Nat.not_le.2 ha), hvm, hcurrent]

/-- **The stack is filled**, when it is mapped. -/
theorem fillStack_spec (hs : s.OwnFrames) (hfile : StringAt s fileName l) (hcopy : StringAt s fnCopy l) (hpf : physBase ≤ fileName)
    (hpc : physBase ≤ fnCopy) (hdis : fnCopy + l.length < fileName ∨ fileName + l.length < fnCopy) (hf : l.length < fuel)
    (hesp : esp + stackSize (words (delimits space) l) = physBase) (hwr : WritableAt s esp (stackSize (words (delimits space) l))) :
    wp (fillStack fuel fileName fnCopy)
      (fun r s' => (r = esp ∧ s'.processStack = esp) ∧ OwnPages s s' ∧ ∀ m : Mem, (∀ x < physBase, m x = s'.byte x) →
        InitialStack (words (delimits space) l) esp m ∧ ∀ x < esp, m x = s.byte x) (fun _ => False) s := by
  have hphys0 : physBase = 0xc0000000 := rfl
  have hwords := length_words_le (p := delimits space) l
  rw [fillStack, wp_bind]
  have hcount := countTokens_spec (n := fuel) hs hfile (writableAt_kernel hpf _) (by omega) hf (by omega)
  have hown := storesIn_forTokens (fun _ => trivial) (storesIn_countToken (σ := Machine) fuel) fuel space fuel fileName 0 (0, 1)
    (OwnPages s) (fun _ _ _ _ hw h => h.store hw) s (.refl s)
  refine wp_mono (wp_and hcount hown) (fun r s₁ hpost => ?_) fun _ h => h.1
  obtain ⟨⟨hr, hu⟩, hown₁⟩ := hpost
  subst hr
  dsimp only
  have hsize : stackSize (words (delimits space) l) =
      1 + room (words (delimits space) l) + 12 + ((words (delimits space) l).length + 1) * 4 := rfl
  rw [show physBase - (1 + room (words (delimits space) l)) - ((words (delimits space) l).length + 1) * 4 - 12 = esp by omega,
    show physBase - (1 + room (words (delimits space) l) + 12 + ((words (delimits space) l).length + 1) * 4) = esp by omega,
    wp_bind, wp_modify, wp_bind]
  -- `process_stack` is not in memory
  have hsame : Leaves s₁ (Access.byte s₁) ({ s₁ with processStack := esp } : Machine) := ⟨hu.leaves.sound, rfl, rfl, rfl⟩
  have hcopy₁ := (hcopy.untouched hu fun y hy hy' => by omega).leaves hsame fun _ _ _ => rfl
  have hput := putArguments_spec hsame.sound hcopy₁ (writableAt_kernel hpc _) hpc hf rfl (by omega) hesp
    ((hwr.leaves hu.leaves).leaves hsame)
  have hkept := storesIn_putArguments (W := fun _ => True) (fun _ => trivial) fuel fnCopy esp (words (delimits space) l).length
    (fun s' => s'.processStack = esp ∧ OwnPages s s') (fun s' a v _ hw h => ⟨?_, h.2.store hw⟩)
    ({ s₁ with processStack := esp } : Machine) ⟨rfl, hown₁.current, hown₁.rest, hown₁.pagedir, hown₁.frames⟩
  · refine wp_mono (wp_and hput hkept) (fun _ s₂ hpost => ?_) fun _ h => h.1
    obtain ⟨hstack, hproc, hown₂⟩ := hpost
    refine ⟨⟨rfl, hproc⟩, hown₂, fun m hm => ⟨(hstack m hm).1, fun x hx => ?_⟩⟩
    exact ((hstack m hm).2 x hx).trans (hu.byte x (by omega))
  · rw [← h.1]
    change (s'.store a v).processStack = s'.processStack
    rcases Nat.lt_or_ge a physBase with ha | ha
    · rw [Machine.store_user ha]
    · rw [Machine.store_kernel ha]

/-- **A new process** has no page but the one that is allocated for its stack. -/
theorem ownFrames_fresh {mem : Memory} {o : Option ℕ} {vm : Vm} (hfresh : ∀ pg, (k.vm.pagedir k.current pg).present = false)
    (halloc : (k.vm.allocatePage mem k.current topPage none true 0).allocateFrame mem k.current topPage = some (o, vm)) :
    k.OwnFrames ∧ ({ k with vm := vm } : Machine).OwnFrames := by
  constructor
  · intro pg pg' hp _ _
    exact absurd ((hfresh pg).symm.trans hp) Bool.false_ne_true
  · have hentered : ∀ pg, ((k.vm.allocatePage mem k.current topPage none true 0).pagedir k.current pg).present = false := by
      intro pg
      rw [← hfresh pg]
      unfold Vm.allocatePage Vm.pageInit
      dsimp only
      split_ifs
      · split <;> rfl
      · split <;> rfl
      · rfl
      · rfl
    obtain ⟨g, t, hget, hcases⟩ := Vm.allocateFrame_cases halloc
    obtain ⟨u, hu, hgot⟩ := Vm.getFrame_rule (I := fun u => ∀ pg, (u.pagedir k.current pg).present = false) (fun u u' hu hs pg => by
      obtain ⟨fte, w, slot, e, hsel, _, _, hfree⟩ := Vm.swapOut_cases hs
      obtain ⟨_, rfl⟩ := Vm.pallocFreePage_cases hfree
      refine Bool.eq_false_iff.2 fun hp => ?_
      exact Bool.false_ne_true ((hu pg).symm.trans ((hsel.present _ _).1 hp).1)) hentered hget
    obtain ⟨_, _, rfl⟩ := Vm.pallocGetPage_cases hgot
    have hnone : ∀ pg, pg ≠ topPage → (vm.pagedir k.current pg).present = false := by
      intro pg hpg
      rcases hcases with ⟨_, hfree, _⟩ | ⟨e, _, _, _, rfl⟩
      · obtain ⟨_, rfl⟩ := Vm.pallocFreePage_cases hfree
        exact hu pg
      · rw [Vm.install_pagedir_of_ne fun h => hpg h.2]
        exact hu pg
    intro pg pg' hp hp' _
    by_contra hne
    by_cases hpg : pg = topPage
    · exact Bool.false_ne_true ((hnone pg' fun h => hne (hpg.trans h.symm)).symm.trans hp')
    · exact Bool.false_ne_true ((hnone pg hpg).symm.trans hp)

/-- **`setup_stack`.** For every command line that is shorter than a page, when its page is allocated (`f` is the frame, `vm` the
state of user memory then) and the stack has room in pages that may be written: `*esp` and what is above it are the initial stack
for the words of the command line, no other byte of the process has changed, and no frame that is not its own. The two strings are
in the kernel, and no two pages of the process share a frame. -/
theorem setup_stack_layout (cmd : CString) (hlen : cmd.bytes.length < pgsize) (k : Machine) {fileName fnCopy esp₀ fuel f : ℕ}
    {mem : Memory} {vm : Vm} (hfile : physBase ≤ fileName) (hstr : k.kernel.Has fileName (cmd.bytes ++ [0]))
    (hcopy : physBase ≤ fnCopy) (hdis : fnCopy + pgsize ≤ fileName ∨ fileName + cmd.bytes.length < fnCopy)
    (halloc : (k.vm.allocatePage mem k.current topPage none true 0).allocateFrame mem k.current topPage = some (some f, vm))
    (hown : k.OwnFrames) (hown' : ({ k with vm := vm } : Machine).OwnFrames)
    (hmapped : ∀ a, physBase - stackSize (words (delimits space) cmd.bytes) ≤ a → a < physBase →
      ({ k with vm := vm } : Machine).writable a = true) (hfuel : cmd.bytes.length < fuel) :
    ∃ toks : List (ℕ × ℕ), (∀ i n, (i, n) ∈ toks ↔ IsRun (free (delimits space) cmd.bytes) i n) ∧
      toks.Pairwise (fun t t' => t.1 + t.2 < t'.1) ∧ words (delimits space) cmd.bytes = toks.map (fun t => (cmd.bytes.drop t.1).take t.2) ∧
      ∃ (esp : ℕ) (s : Machine), setupStack fuel mem (some fnCopy) esp₀ fileName k = .ok ((true, esp), s) ∧ s.processStack = esp ∧
        esp + stackSize (words (delimits space) cmd.bytes) = physBase ∧ InitialStack (words (delimits space) cmd.bytes) esp s.byte ∧
        (∀ a < esp, s.byte a = ({ k with vm := vm } : Machine).byte a) ∧
        ∀ g, (∀ pg, (vm.pagedir k.current pg).present = true → (vm.pagedir k.current pg).frame ≠ g) → s.vm.memory g = vm.memory g := by
  have hphys0 : physBase = 0xc0000000 := rfl
  have hpg : pgsize = 4096 := rfl
  have hfits := stackSize_words_le (p := delimits space) cmd.bytes
  refine ⟨tokens (delimits space) cmd.bytes, fun i n => mem_tokens_iff _, pairwise_tokens _, rfl,
    physBase - stackSize (words (delimits space) cmd.bytes), ?_⟩
  generalize hargs : words (delimits space) cmd.bytes = args at *
  obtain ⟨esp, hesp⟩ : ∃ esp, esp + stackSize args = physBase := ⟨physBase - stackSize args, by omega⟩
  rw [show physBase - stackSize args = esp by omega] at hmapped ⊢
  have hstring : StringAt k fileName cmd.bytes :=
    ⟨cmd.noNul, hstr.congr fun x hx _ => if_pos (hfile.trans hx), readableAt_kernel hfile _⟩
  have hrun : wp (setupStack fuel mem (some fnCopy) esp₀ fileName) (fun r s => r = (true, esp) ∧ s.processStack = esp ∧
      InitialStack args esp s.byte ∧ (∀ a < esp, s.byte a = ({ k with vm := vm } : Machine).byte a) ∧
      ∀ g, (∀ pg, (vm.pagedir k.current pg).present = true → (vm.pagedir k.current pg).frame ≠ g) → s.vm.memory g = vm.memory g)
      (fun _ => False) k := by
    rw [setupStack, wp_bind]
    have hcpy := strlcpy_spec hown hstring hfuel (by omega) (by omega) hlen (writableAt_kernel hcopy _) (by omega)
    -- the copy is in the kernel
    have hkept := storesIn_strlcpy (W := fun a => physBase ≤ a) (fun i (_ : i < pgsize) => hcopy.trans (Nat.le_add_right fnCopy i)) fuel fileName
      (fun s : Machine => s.vm = k.vm ∧ s.current = k.current) (fun s a v ha _ hs => ?_) k ⟨rfl, rfl⟩
    · refine wp_mono (wp_and hcpy hkept) (fun _ s₁ hpost => ?_) fun _ h => h.1
      obtain ⟨⟨_, h₁⟩, hvm, hcurrent⟩ := hpost
      rw [wp_bind, wp_modify, wp_bind, allocateFrame, wp_bind, wp_gets, id, wp_bind]
      dsimp only
      rw [hvm, hcurrent, halloc, wp_orStop_some]
      dsimp only
      rw [wp_bind, wp_modify, wp_pure, Option.isSome_some, if_pos rfl, wp_bind]
      dsimp only
      have hkernel : ∀ x, physBase ≤ x → (Machine.mk vm k.current s₁.kernel s₁.processStack).byte x =
          withString k.byte fnCopy cmd.bytes x := fun x hx => by
        have hx₁ : s₁.byte x = withString k.byte fnCopy cmd.bytes x := congrFun h₁.byte x
        rw [← hx₁, Machine.byte, Machine.byte, if_pos hx, if_pos hx]
      have hfile₂ : StringAt (Machine.mk vm k.current s₁.kernel s₁.processStack) fileName cmd.bytes :=
        ⟨cmd.noNul, hstring.has.congr fun x hx hlt => (hkernel x (hfile.trans hx)).trans (withString_of_outside (by
          rw [List.length_append, List.length_singleton] at hlt
          omega)), readableAt_kernel hfile _⟩
      have hcopy₂ : StringAt (Machine.mk vm k.current s₁.kernel s₁.processStack) fnCopy cmd.bytes :=
        ⟨cmd.noNul, (withString_has k.byte fnCopy cmd.bytes).congr fun x hx _ => hkernel x (hcopy.trans hx), readableAt_kernel hcopy _⟩
      have hwr : WritableAt (Machine.mk vm k.current s₁.kernel s₁.processStack) esp (stackSize args) :=
        fun i hi => hmapped (esp + i) (by omega) (by omega)
      rw [← hargs] at hesp hwr ⊢
      refine wp_post (fillStack_spec hown' hfile₂ hcopy₂ hfile hcopy (by omega) hfuel hesp hwr)
        fun r s₃ hpost => ?_
      obtain ⟨⟨hr, hproc⟩, hown₃, hstack⟩ := hpost
      rw [wp_bind, wp_modify, wp_pure]
      obtain ⟨hlayout, hbelow⟩ := hstack (Machine.byte { s₃ with kernel := s₃.kernel.copy fnCopy pgsize fun _ => 0xcc })
        fun x hx => byte_user rfl rfl hx
      refine ⟨by rw [hr], hproc, hlayout, fun x hx => ?_, fun g hg => hown₃.frames g hg⟩
      exact (hbelow x hx).trans (byte_user rfl rfl (by omega))
    · have hstore : Access.store s a v = { s with kernel := Function.update s.kernel a v } := Machine.store_kernel ha
      rw [hstore]
      exact hs
  obtain ⟨r, s, hok, hr, hrest⟩ := exists_ok hrun
  subst hr
  exact ⟨s, hok, hrest.1, hesp, hrest.2⟩

/-- A new process, with the command line "ls  -l". -/
def lsMachine : Machine where
  vm := (Vm.init 4 4 fun _ => []).spawn 1
  current := 1
  kernel := fun x => [108, 115, 32, 32, 45, 108].getD (x - 0xc0001000) 0
  processStack := 0

/-- User memory with its stack page. -/
def lsVm : Vm :=
  ((lsMachine.vm.allocatePage .ample 1 topPage none true 0).allocateFrame .ample 1 topPage).elim lsMachine.vm Prod.snd

theorem lsVm_eq : (lsMachine.vm.allocatePage .ample 1 topPage none true 0).allocateFrame .ample 1 topPage = some (some 0, lsVm) := rfl

theorem noNul_ls : (0 : UInt8) ∉ [108, 115, 32, 32, 45, 108] := by decide

theorem words_ls : words (delimits space) [108, 115, 32, 32, 45, 108] = [[108, 115], [45, 108]] := by
  rw [words_of_ne_nil (by decide)]
  change [108, 115] :: words (delimits space) [32, 45, 108] = _
  rw [words_of_ne_nil (by decide)]
  change [108, 115] :: [45, 108] :: words (delimits space) [] = _
  rw [words_of_nil rfl]

theorem setup_stack_layout_ls : ∃ (esp : ℕ) (s : Machine),
    setupStack 7 .ample (some 0xc0002000) 0 0xc0001000 lsMachine = .ok ((true, esp), s) ∧ esp + 31 = physBase ∧
      InitialStack [[108, 115], [45, 108]] esp s.byte := by
  have hsize : stackSize [[108, 115], [45, 108]] = 31 := rfl
  have hown := ownFrames_fresh (k := lsMachine) (fun _ => rfl) lsVm_eq
  have hmapped : ∀ a, physBase - stackSize (words (delimits space) [108, 115, 32, 32, 45, 108]) ≤ a → a < physBase →
      ({ lsMachine with vm := lsVm } : Machine).writable a = true := by
    intro a hle hlt
    rw [words_ls, hsize] at hle
    have hphys0 : physBase = 0xc0000000 := rfl
    have hpage : pageAt a hlt = topPage := Fin.ext (show a / 4096 = 0xbffff by omega)
    rw [Machine.writable, Machine.pte_eq hlt, hpage]
    exact Bool.or_true _
  obtain ⟨_, -, -, -, esp, s, hrun, -, hesp, hlayout, -⟩ := @setup_stack_layout ⟨[108, 115, 32, 32, 45, 108], noNul_ls⟩ (by decide)
    lsMachine 0xc0001000 0xc0002000 0 7 0 .ample lsVm (by decide)
    ⟨rfl, rfl, rfl, rfl, rfl, rfl, rfl, trivial⟩ (by decide) (by decide) lsVm_eq hown.1 hown.2 hmapped (by decide)
  rw [words_ls] at hesp hlayout
  exact ⟨esp, s, hrun, hesp, hlayout⟩

end Pintos.Stack
