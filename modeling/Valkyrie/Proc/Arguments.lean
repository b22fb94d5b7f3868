import Valkyrie.Kernel.AddressSpaces
import Valkyrie.Lib.CString

/-!
# Arguments of programs

`Task::copy_arguments_to_user_stack` of `proc/Task.cc`, which `exec` calls to put the arguments of
a program on its stack. The strings are first copied out of the memory of the task, and then laid
out in the stack page from its end downwards: the strings, in the order that the last one is
written first; an array of pointers to them; a pointer to that array; and their number. What
lies there is named by the addresses that the program will find the page at.

The layout is right for any strings that fit in the page (`Valkyrie.VMMap.Passed`). What goes
wrong is the first part. The strings are given by addresses of the task, and only the address of
the first byte of each is translated; the rest of the string is taken from where it follows in
physical memory. So the program gets the strings that were meant for it exactly if they lie
behind each other there (`Valkyrie.VMMap.passed_iff`). And there has to be one at least: for an
array of no pointers the kernel heap has no room, and the kernel aborts.
-/

namespace Valkyrie.VMMap

open Exec MemoryManager

/-! ### The calls -/

/-- `USER_STACK_PAGE`. -/
def userStackPage : ℕ := 0x00007ffffffff000

/-- Where the program finds what is at an address of its stack page. -/
def userAddress (a : ℕ) : BitVec 64 := BitVec.ofNat 64 (userStackPage + a % pageSize)

/-- `user_sp -= len`. There is nothing below the start of memory. -/
def lower (sp len : ℕ) : Exec ℕ := if len ≤ sp then .ok (sp - len) else .error .wild

/-- The loop that counts the entries of `argv`, from one of them on. -/
def probeArgc (m : Mem) (argv : ℕ) : ℕ → ℕ → Exec ℕ
  | 0, _ => .error .outOfFuel
  | fuel + 1, argc =>
    if m.readWord (argv + 8 * argc) = 0 then return argc else probeArgc m argv fuel (argc + 1)

/-- The loop that copies the strings to the kernel heap, with the number of those still to go. -/
def readStrings (fuel pgd argv : ℕ) (s : State) : ℕ → ℕ → Exec (List (List UInt8))
  | 0, _ => return []
  | n + 1, i => do
    let p ← getPhysicalAddress fuel pgd (s.mem.readWord (argv + 8 * i)).toNat s
    let string ← readString s.mem fuel p
    return string :: (← readStrings fuel pgd argv s n (i + 1))

/-- The loop that copies the strings to the stack. It starts with the last one. The results are
`copied_str_addrs` and `user_sp`. -/
def copyStrings (fuel : ℕ) : List (List UInt8) → ℕ → Mem → Exec (List ℕ × ℕ × Mem)
  | [], sp, m => return ([], sp, m)
  | string :: strings, sp, m => do
    let (addrs, sp, m) ← copyStrings fuel strings sp m
    let len ← roundUpToMultipleOfN fuel (string.length + 1) 16
    let sp ← lower sp len
    return (sp :: addrs, sp, m.put sp (string ++ [0]))

/-- The loop that writes the array of pointers, and the null pointer at its end. -/
def copyPointers : List ℕ → ℕ → Mem → Mem
  | [], array, m => m.writeWord array 0
  | a :: addrs, array, m => copyPointers addrs (array + 8) (m.writeWord array (userAddress a))

/-- The end of the function: `copied_argv_ptr` and `argc`. -/
def pushArgc (argc : ℕ) (copiedArgvPtr : BitVec 64) (sp : ℕ) (m : Mem) : Exec (ℕ × Mem) := do
  let sp ← lower sp 8
  let m := m.writeWord sp copiedArgvPtr
  let sp ← lower sp 8
  let m := m.writeBytes sp 4 (BitVec.ofNat 32 argc)
  if sp % 16 ≠ 0 then .error (.panic "sys_exec: user SP misaligned!\n") else return (sp, m)

/-- What is done once the strings are in the kernel heap. -/
def layArguments (fuel page : ℕ) (strings : List (List UInt8)) (m : Mem) : Exec (ℕ × Mem) := do
  let (addrs, sp, m) ← copyStrings fuel strings (page + pageSize) m
  let len ← roundUpToMultipleOfN fuel (8 * (strings.length + 2)) 16
  let sp ← lower sp len
  pushArgc strings.length (userAddress sp) sp (copyPointers addrs sp m)

/-- `copy_arguments_to_user_stack`, with the page `_ustack_page`. -/
def copyArgumentsToUserStack (fuel pgd page argv : ℕ) (s : State) : Exec (ℕ × State) :=
  if argv = 0 then do
    let (sp, m) ← pushArgc 0 0 (page + pageSize) s.mem
    return (sp, { s with mem := m })
  else do
    let argc ← probeArgc s.mem argv fuel 0
    -- `strings`, with the number of its elements in front, and `copied_str_addrs`
    operatorNew (8 + 8 * argc)
    operatorNew (8 * argc)
    let strings ← readStrings fuel pgd argv s argc 0
    -- the buffers of the strings
    strings.forM fun string => operatorNew (string.length + 1)
    let (sp, m) ← layArguments fuel page strings s.mem
    return (sp, { s with mem := m })

/-! ### What the program should find -/

/-- A number of bytes, rounded up. -/
def round16 (n : ℕ) : ℕ := (n + 15) / 16 * 16

/-- The room that strings take. -/
def room (args : List (List UInt8)) : ℕ := (args.map fun s => round16 (s.length + 1)).sum

/-- **The copies fit in one page.** -/
def FitInPage (args : List (List UInt8)) : Prop :=
  room args + round16 (8 * (args.length + 2)) + 16 ≤ pageSize

instance (args : List (List UInt8)) : Decidable (FitInPage args) := inferInstanceAs (Decidable (_ ≤ _))

/-- Where the objects on the stack are, and how long they are: the number of arguments, the pointer
to the array, the array, and the strings. -/
def objects (sp array : ℕ) (addrs : List ℕ) (args : List (List UInt8)) : List (ℕ × ℕ) :=
  (sp, 4) :: (sp + 8, 8) :: (array, 8 * (args.length + 1)) ::
    List.zipWith (fun a s => (a, s.length + 1)) addrs args

/-- **The arguments on the stack**, with the address of the array and those of the strings. The
objects are in the page, one behind the other. -/
structure ArgumentsAt (page : ℕ) (args : List (List UInt8)) (sp : ℕ) (m : Mem) (array : ℕ)
    (addrs : List ℕ) : Prop where
  aligned : sp % 16 = 0
  argc : m.readBytes sp 4 = BitVec.ofNat 32 args.length
  argv : m.readWord (sp + 8) = BitVec.ofNat 64 (userStackPage + (array - page))
  pointers : ∀ i a, addrs[i]? = some a →
    m.readWord (array + 8 * i) = BitVec.ofNat 64 (userStackPage + (a - page))
  null : m.readWord (array + 8 * args.length) = 0
  strings : List.Forall₂ m.CString addrs args
  apart : (objects sp array addrs args).Pairwise fun x y => x.1 + x.2 ≤ y.1
  inside : ∀ x ∈ objects sp array addrs args, page ≤ x.1 ∧ x.1 + x.2 ≤ page + pageSize

/-- The arguments are on the stack. -/
def Passed (page : ℕ) (args : List (List UInt8)) (sp : ℕ) (m : Mem) : Prop :=
  ∃ array addrs, ArgumentsAt page args sp m array addrs

/-- `argv`: pointers that are not null, and a null pointer behind them. -/
def Argv (m : Mem) : ℕ → List (BitVec 64) → Prop
  | a, [] => m.readWord a = 0
  | a, w :: ws => m.readWord a = w ∧ w ≠ 0 ∧ Argv m (a + 8) ws

/-- **The string is found** where the translation of its address leads to. -/
def Reaches (pgd : ℕ) (s : State) (w : BitVec 64) (string : List UInt8) : Prop :=
  ∃ p, (∀ fuel, getPhysicalAddress fuel pgd w.toNat s = .ok p) ∧ s.mem.CString p string

variable {m m' : Mem} {s s' : State} {args : List (List UInt8)} {addrs : List ℕ}
  {ptrs : List (BitVec 64)} {string : List UInt8} {fuel pgd page argv sp top array a n r : ℕ}

/-! ### Reading -/

/-- The number of the entries. -/
theorem probeArgc_eq : ∀ {ptrs : List (BitVec 64)} {fuel i : ℕ}, Argv m (argv + 8 * i) ptrs →
    ptrs.length < fuel → probeArgc m argv fuel i = .ok (i + ptrs.length)
  | [], fuel + 1, i, h, _ => by
    rw [probeArgc]
    exact if_pos h
  | w :: ws, fuel + 1, i, h, hlt => by
    obtain ⟨hw, hne, hrest⟩ := h
    have hnext : Argv m (argv + 8 * (i + 1)) ws := by rwa [Nat.mul_succ, ← Nat.add_assoc]
    rw [probeArgc, hw, if_neg hne, probeArgc_eq hnext (Nat.lt_of_succ_lt_succ hlt),
      List.length_cons, Nat.add_assoc, Nat.add_comm 1]

/-- The translation does not depend on a bound. -/
theorem exists_translation (pgd v : ℕ) (s : State) :
    ∃ p, ∀ fuel, getPhysicalAddress fuel pgd v s = .ok p := by
  cases hslot : slotAt 3 pgd s.mem (pathOf v) with
  | none => exact ⟨0, fun _ => getPhysicalAddress_of_none hslot⟩
  | some a => exact ⟨_, fun _ => getPhysicalAddress_of_slot hslot⟩

/-- **The strings that are read** are those that the translations lead to. -/
theorem readStrings_eq_ok_iff : ∀ {ptrs : List (BitVec 64)} {i : ℕ} {args : List (List UInt8)},
    Argv s.mem (argv + 8 * i) ptrs →
      (readStrings fuel pgd argv s ptrs.length i = .ok args ↔
        List.Forall₂ (Reaches pgd s) ptrs args ∧ ∀ string ∈ args, string.length < fuel)
  | [], i, args, _ => by
    rw [List.length_nil, readStrings, pure_eq_ok, List.forall₂_nil_left_iff]
    constructor
    · rintro rfl
      exact ⟨rfl, by simp⟩
    · exact fun h => h.1.symm
  | w :: ws, i, args, h => by
    obtain ⟨hw, -, hrest⟩ := h
    have hnext : Argv s.mem (argv + 8 * (i + 1)) ws := by rwa [Nat.mul_succ, ← Nat.add_assoc]
    obtain ⟨p, hp⟩ := exists_translation pgd w.toNat s
    rw [List.length_cons, readStrings, hw, hp fuel, ok_bind]
    constructor
    · intro hcall
      obtain ⟨string, hstring, hcall⟩ := bind_eq_ok.mp hcall
      obtain ⟨rest, hread, hcall⟩ := bind_eq_ok.mp hcall
      obtain rfl := pure_eq_ok.mp hcall
      obtain ⟨hat, hlen⟩ := readString_eq_ok_iff.mp hstring
      obtain ⟨hall, hlens⟩ := (readStrings_eq_ok_iff hnext).mp hread
      exact ⟨.cons ⟨p, hp, hat⟩ hall, List.forall_mem_cons.mpr ⟨hlen, hlens⟩⟩
    · rintro ⟨hall, hlens⟩
      obtain ⟨string, rest, ⟨p', hp', hat⟩, hall', rfl⟩ := List.forall₂_cons_left_iff.mp hall
      obtain rfl : p = p' := Except.ok.inj ((hp 0).symm.trans (hp' 0))
      obtain ⟨hlen, hlens⟩ := List.forall_mem_cons.mp hlens
      rw [readString_eq_ok_iff.mpr ⟨hat, hlen⟩, ok_bind,
        (readStrings_eq_ok_iff hnext).mpr ⟨hall', hlens⟩]
      rfl

/-! ### Strings on the stack -/

/-- **Strings one behind the other**, each with its length rounded up. -/
def Stacked (m : Mem) : List (List UInt8) → List ℕ → ℕ → ℕ → Prop
  | [], [], sp, top => sp = top
  | string :: strings, a :: addrs, sp, top =>
    a = sp ∧ m.CString sp string ∧ Stacked m strings addrs (sp + round16 (string.length + 1)) top
  | _, _, _, _ => False

theorem le_round16 (n : ℕ) : n ≤ round16 n := by
  simp only [round16]
  omega

theorem Stacked.le : ∀ {args : List (List UInt8)} {addrs : List ℕ} {sp : ℕ},
    Stacked m args addrs sp top → sp ≤ top
  | [], [], _, h => le_of_eq h
  | _ :: _, _ :: _, _, h => (Nat.le_add_right _ _).trans h.2.2.le

/-- What is stacked depends on the bytes of the stack only. -/
theorem Stacked.congr : ∀ {args : List (List UInt8)} {addrs : List ℕ} {sp : ℕ},
    Stacked m args addrs sp top → (∀ x, sp ≤ x → x < top → m' x = m x) →
      Stacked m' args addrs sp top
  | [], [], _, h, _ => h
  | string :: _, _ :: _, sp, h, hagree => by
    obtain ⟨rfl, hstring, hrest⟩ := h
    have hlen := le_round16 (string.length + 1)
    have hle := hrest.le
    refine ⟨rfl, hstring.congr fun k hk => hagree _ (by omega) (by omega), hrest.congr ?_⟩
    exact fun x hx hx' => hagree x (by omega) hx'

theorem Stacked.strings : ∀ {args : List (List UInt8)} {addrs : List ℕ} {sp : ℕ},
    Stacked m args addrs sp top → List.Forall₂ m.CString addrs args
  | [], [], _, _ => .nil
  | _ :: _, _ :: _, _, h => by
    obtain ⟨rfl, hstring, hrest⟩ := h
    exact .cons hstring hrest.strings

theorem Stacked.mem : ∀ {args : List (List UInt8)} {addrs : List ℕ} {sp : ℕ},
    Stacked m args addrs sp top → a ∈ addrs → sp ≤ a ∧ a < top
  | [], [], _, _, ha => absurd ha List.not_mem_nil
  | string :: _, _ :: _, sp, h, ha => by
    obtain ⟨rfl, -, hrest⟩ := h
    have hlen := le_round16 (string.length + 1)
    have hle := hrest.le
    rcases List.mem_cons.mp ha with rfl | ha
    · exact ⟨le_refl a, by omega⟩
    · have hbetween := hrest.mem ha
      omega

/-- The strings are between the two ends of the stack, and they do not overlap. -/
theorem Stacked.objects : ∀ {args : List (List UInt8)} {addrs : List ℕ} {sp : ℕ},
    Stacked m args addrs sp top →
      (List.zipWith (fun a s => (a, s.length + 1)) addrs args).Pairwise
          (fun x y : ℕ × ℕ => x.1 + x.2 ≤ y.1) ∧
        ∀ x ∈ List.zipWith (fun a s => (a, s.length + 1)) addrs args, sp ≤ x.1 ∧ x.1 + x.2 ≤ top
  | [], [], _, _ => ⟨.nil, by simp⟩
  | string :: _, _ :: _, sp, h => by
    obtain ⟨rfl, -, hrest⟩ := h
    have hlen := le_round16 (string.length + 1)
    have hle := hrest.le
    obtain ⟨hpair, hbetween⟩ := hrest.objects
    rw [List.zipWith_cons_cons]
    refine ⟨List.pairwise_cons.mpr ⟨fun x hx => ?_, hpair⟩, List.forall_mem_cons.mpr ⟨?_, ?_⟩⟩
    · have hlow := (hbetween x hx).1
      dsimp only
      omega
    · dsimp only
      omega
    · exact fun x hx => ⟨by have := (hbetween x hx).1; omega, (hbetween x hx).2⟩

theorem lower_eq_ok (h : lower sp n = .ok r) : n ≤ sp ∧ r = sp - n := by
  rw [lower] at h
  split_ifs at h with hle
  exact ⟨hle, (Except.ok.inj h).symm⟩

/-- The rounding, as long as it does not leave the lower half of the type. -/
theorem roundUp_eq {x : ℕ} (h : roundUpToMultipleOfN fuel x 16 = .ok r) (hx : 0 < x)
    (hr : r ≤ 2 ^ 63) : r = round16 x := by
  have hle := le_of_roundUpToMultipleOfN h
  have hsize : x + 16 ≤ sizeMod := by
    simp only [sizeMod]
    omega
  obtain ⟨hdvd, hlow, hhigh⟩ := (meets_roundUpToMultipleOfN hx hsize fuel).of_eq_ok h
  simp only [round16]
  omega

theorem exists_roundUp {x : ℕ} (hx : 0 < x) (hle : x ≤ pageSize) (hfuel : pageSize ≤ fuel) :
    roundUpToMultipleOfN fuel x 16 = .ok (round16 x) := by
  simp only [pageSize] at hle hfuel
  have hsize : x + 16 ≤ sizeMod := by
    simp only [sizeMod]
    omega
  have hmeets := meets_roundUpToMultipleOfN hx hsize fuel
  obtain ⟨r, hr, -, -, hhigh⟩ := hmeets.exists_ok (by omega)
  rw [hr, roundUp_eq hr hx (by omega)]

theorem room_cons : room (string :: args) = round16 (string.length + 1) + room args := by
  rw [room, List.map_cons, List.sum_cons, room]

theorem dvd_room : ∀ args : List (List UInt8), 16 ∣ room args
  | [] => dvd_zero 16
  | _ :: args => by
    rw [room_cons]
    exact (Nat.dvd_add_right (Dvd.intro_left _ rfl)).mpr (dvd_room args)

/-- **What `copyStrings` leaves** on the stack, if it returns. -/
theorem copyStrings_spec (htop : top ≤ 2 ^ 63) : ∀ {args : List (List UInt8)} {addrs : List ℕ}
    {sp : ℕ} {m' : Mem}, (∀ string ∈ args, 0 ∉ string) →
      copyStrings fuel args top m = .ok (addrs, sp, m') →
        Stacked m' args addrs sp top ∧ sp + room args = top ∧
          ∀ x, x < sp ∨ top ≤ x → m' x = m x
  | [], _, _, _, _, hcall => by
    cases pure_eq_ok.mp hcall
    exact ⟨rfl, rfl, fun _ _ => rfl⟩
  | string :: args, _, _, _, hzero, hcall => by
    obtain ⟨hstring, hzero⟩ := List.forall_mem_cons.mp hzero
    obtain ⟨⟨addrs, next, m₁⟩, hrest, hcall⟩ := bind_eq_ok.mp hcall
    obtain ⟨len, hlen, hcall⟩ := bind_eq_ok.mp hcall
    obtain ⟨sp, hlower, hcall⟩ := bind_eq_ok.mp hcall
    cases pure_eq_ok.mp hcall
    obtain ⟨hstacked, hroom, hframe⟩ := copyStrings_spec htop hzero hrest
    obtain ⟨hle, rfl⟩ := lower_eq_ok hlower
    have hnext := hstacked.le
    obtain rfl := roundUp_eq hlen (Nat.succ_pos _) (by omega)
    have hbytes := le_round16 (string.length + 1)
    have hput : ∀ x, x < next - round16 (string.length + 1) ∨ next ≤ x →
        m₁.put (next - round16 (string.length + 1)) (string ++ [0]) x = m₁ x := fun x hx => by
      refine Mem.put_of_not_mem ?_
      rw [List.length_append, List.length_singleton]
      omega
    refine ⟨⟨rfl, m₁.cString_put hstring, ?_⟩, by rw [room_cons]; omega, fun x hx => ?_⟩
    · rw [Nat.sub_add_cancel hle]
      exact hstacked.congr fun x hx _ => hput x (Or.inr hx)
    · rw [hput x (by omega)]
      exact hframe x (by omega)

/-- `copyStrings` returns if there is room. -/
theorem exists_copyStrings (hfuel : pageSize ≤ fuel) (htop : top ≤ 2 ^ 63) :
    ∀ {args : List (List UInt8)}, (∀ string ∈ args, 0 ∉ string) → room args ≤ pageSize →
      room args ≤ top → ∃ addrs sp m', copyStrings fuel args top m = .ok (addrs, sp, m')
  | [], _, _, _ => ⟨[], top, m, rfl⟩
  | string :: args, hzero, hpage, hroom => by
    rw [room_cons] at hpage hroom
    obtain ⟨-, hzero⟩ := List.forall_mem_cons.mp hzero
    obtain ⟨addrs, next, m₁, hrest⟩ := exists_copyStrings hfuel htop hzero (by omega) (by omega)
    obtain ⟨-, hnext, -⟩ := copyStrings_spec htop hzero hrest
    have hbytes := le_round16 (string.length + 1)
    have hround := exists_roundUp (Nat.succ_pos string.length) (by omega) hfuel
    have hle : round16 (string.length + 1) ≤ next := by omega
    refine ⟨(next - round16 (string.length + 1)) :: addrs, next - round16 (string.length + 1),
      m₁.put (next - round16 (string.length + 1)) (string ++ [0]), ?_⟩
    rw [copyStrings, hrest, ok_bind]
    dsimp only
    rw [hround, ok_bind, lower, if_pos hle, ok_bind]
    rfl

/-! ### Pointers on the stack -/

/-- **What `copyPointers` leaves** on the stack. -/
theorem copyPointers_spec : ∀ (addrs : List ℕ) (array : ℕ) (m : Mem),
    (∀ i a, addrs[i]? = some a →
        (copyPointers addrs array m).readWord (array + 8 * i) = userAddress a) ∧
      (copyPointers addrs array m).readWord (array + 8 * addrs.length) = 0 ∧
      ∀ x, x < array ∨ array + 8 * (addrs.length + 1) ≤ x → copyPointers addrs array m x = m x
  | [], array, m => by
    refine ⟨fun i a hi => absurd hi (by simp), Mem.readWord_writeWord_self 0, fun x hx => ?_⟩
    exact Mem.writeWord_of_not_mem (by simpa using hx)
  | a :: addrs, array, m => by
    obtain ⟨hpointers, hnull, hframe⟩ :=
      copyPointers_spec addrs (array + 8) (m.writeWord array (userAddress a))
    rw [copyPointers, List.length_cons]
    refine ⟨fun i b hi => ?_, ?_, fun x hx => ?_⟩
    · cases i with
      | zero =>
        obtain rfl : a = b := by simpa using hi
        refine (Mem.readWord_congr fun k hk => hframe _ (Or.inl (by omega))).trans ?_
        exact Mem.readWord_writeWord_self _
      | succ i =>
        have hword := hpointers i b (by simpa using hi)
        rwa [Nat.add_assoc, Nat.add_comm 8, ← Nat.mul_succ] at hword
    · rwa [Nat.add_assoc, Nat.add_comm 8, ← Nat.mul_succ] at hnull
    · rw [hframe x (by omega)]
      exact Mem.writeWord_of_not_mem (by omega)

/-! ### The layout -/

theorem userAddress_eq (hpage : IsFrame page) (hlow : page ≤ a) (hhigh : a < page + pageSize) :
    userAddress a = BitVec.ofNat 64 (userStackPage + (a - page)) := by
  obtain ⟨k, rfl⟩ := hpage.bounds.2.2
  obtain ⟨off, rfl⟩ := Nat.exists_eq_add_of_le hlow
  rw [userAddress, Nat.mul_add_mod, Nat.add_sub_cancel_left, Nat.mod_eq_of_lt (by omega)]

/-- What is below the array. -/
theorem pushArgc_spec {argc : ℕ} {ptr : BitVec 64} (h : pushArgc argc ptr array m = .ok (sp, m')) :
    sp + 16 = array ∧ sp % 16 = 0 ∧ m'.readBytes sp 4 = BitVec.ofNat 32 argc ∧
      m'.readWord (sp + 8) = ptr ∧ ∀ x, x < sp ∨ array ≤ x → m' x = m x := by
  obtain ⟨sp₁, hlower₁, h⟩ := bind_eq_ok.mp h
  obtain ⟨sp₂, hlower₂, h⟩ := bind_eq_ok.mp h
  obtain ⟨hle₁, rfl⟩ := lower_eq_ok hlower₁
  obtain ⟨hle₂, rfl⟩ := lower_eq_ok hlower₂
  split_ifs at h with halign
  cases pure_eq_ok.mp h
  have hsp : array - 8 - 8 + 8 = array - 8 := by omega
  refine ⟨by omega, by omega, Mem.readBytes_writeBytes _, ?_, fun x hx => ?_⟩
  · rw [hsp]
    refine (Mem.readWord_congr fun k _ => Mem.writeBytes_of_not_mem (by omega)).trans ?_
    exact Mem.readWord_writeWord_self _
  · rw [Mem.writeBytes_of_not_mem (by omega), Mem.writeWord_of_not_mem (by omega)]

theorem exists_pushArgc (argc : ℕ) (ptr : BitVec 64) (hle : 16 ≤ array)
    (haligned : array % 16 = 0) :
    ∃ r, pushArgc argc ptr array m = .ok r := by
  refine ⟨(array - 8 - 8,
    (m.writeWord (array - 8) ptr).writeBytes (array - 8 - 8) 4 (BitVec.ofNat 32 argc)), ?_⟩
  rw [pushArgc, lower, if_pos (by omega), ok_bind, lower, if_pos (by omega), ok_bind]
  dsimp only
  rw [if_neg (by omega)]
  rfl

/-- **What is laid out**, if the call returns: the arguments, as long as this is in the page. The
rest of memory is left alone. -/
theorem layArguments_spec (hpage : IsFrame page) (hzero : ∀ string ∈ args, 0 ∉ string)
    (hcall : layArguments fuel page args m = .ok (sp, m')) :
    sp + (room args + round16 (8 * (args.length + 2)) + 16) = page + pageSize ∧
      (page ≤ sp → Passed page args sp m') ∧
      ∀ x, x < sp ∨ page + pageSize ≤ x → m' x = m x := by
  have htop := hpage.le_two_pow
  obtain ⟨⟨addrs, low, m₁⟩, hstrings, hcall⟩ := bind_eq_ok.mp hcall
  obtain ⟨len, hround, hcall⟩ := bind_eq_ok.mp hcall
  obtain ⟨array, hlower, hcall⟩ := bind_eq_ok.mp hcall
  obtain ⟨hstacked, hroom, hbelow⟩ := copyStrings_spec htop hzero hstrings
  obtain ⟨hle, harray⟩ := lower_eq_ok hlower
  have hlow := hstacked.le
  have hlen := roundUp_eq hround (by omega) (by omega)
  have hbytes := le_round16 (8 * (args.length + 2))
  rw [← hlen] at hbytes ⊢
  obtain ⟨hsp, haligned, hargc, hargv, habove⟩ := pushArgc_spec hcall
  have hcount : addrs.length = args.length := hstacked.strings.length_eq
  obtain ⟨hpointers, hnull, hframe⟩ := copyPointers_spec addrs array m₁
  rw [hcount] at hnull hframe
  refine ⟨by omega, fun hin => ?_, fun x hx => ?_⟩
  rotate_left
  · rw [habove x (by omega), hframe x (by omega), hbelow x (by omega)]
  -- What is written below the array leaves everything from the array on alone.
  have hwords : ∀ x, array ≤ x → m'.readWord x = (copyPointers addrs array m₁).readWord x :=
    fun x hx => Mem.readWord_congr fun k _ => habove _ (by omega)
  have hstacked' : Stacked m' args addrs low (page + pageSize) :=
    hstacked.congr fun x hx _ => (habove x (by omega)).trans (hframe x (by omega))
  obtain ⟨hpair, hbetween⟩ := hstacked'.objects
  refine ⟨array, addrs, haligned, hargc, ?_, fun i a hi => ?_, ?_, hstacked'.strings, ?_, ?_⟩
  · rw [hargv, userAddress_eq hpage (by omega) (by omega)]
  · have ha := hstacked'.mem (List.mem_of_getElem? hi)
    rw [hwords _ (by omega), hpointers i a hi, userAddress_eq hpage (by omega) ha.2]
  · rw [hwords _ (by omega), hnull]
  · simp only [objects, List.pairwise_cons, List.forall_mem_cons]
    refine ⟨⟨by omega, by omega, fun x hx => ?_⟩, ⟨by omega, fun x hx => ?_⟩, fun x hx => ?_, hpair⟩
    all_goals
      have hx' := (hbetween x hx).1
      omega
  · simp only [objects, List.forall_mem_cons]
    refine ⟨by omega, by omega, by omega, fun x hx => ?_⟩
    have hx' := hbetween x hx
    omega

/-- **The layout returns** if everything fits. -/
theorem exists_layArguments (hfuel : pageSize ≤ fuel) (hpage : IsFrame page)
    (hzero : ∀ string ∈ args, 0 ∉ string) (hfits : FitInPage args) :
    ∃ sp m', layArguments fuel page args m = .ok (sp, m') := by
  have htop := hpage.le_two_pow
  rw [FitInPage] at hfits
  have hbytes := le_round16 (8 * (args.length + 2))
  obtain ⟨addrs, low, m₁, hstrings⟩ := exists_copyStrings (m := m) hfuel htop hzero
    (by omega) (by omega)
  obtain ⟨-, hroom, -⟩ := copyStrings_spec htop hzero hstrings
  have hround := exists_roundUp (x := 8 * (args.length + 2)) (by omega) (by omega) hfuel
  -- The page starts at a multiple of 16, and all that is taken from it is one too.
  have haligned : (low - round16 (8 * (args.length + 2))) % 16 = 0 := by
    obtain ⟨k, hk⟩ := hpage.bounds.2.2
    obtain ⟨r, hr⟩ := dvd_room args
    simp only [round16, pageSize] at *
    omega
  obtain ⟨⟨sp, m'⟩, hpush⟩ := exists_pushArgc args.length
    (userAddress (low - round16 (8 * (args.length + 2))))
    (m := copyPointers addrs (low - round16 (8 * (args.length + 2))) m₁) (by omega) haligned
  refine ⟨sp, m', ?_⟩
  rw [layArguments, hstrings, ok_bind]
  dsimp only
  rw [hround, ok_bind, lower, if_pos (by omega), ok_bind]
  exact hpush

/-! ### The arguments that were passed -/

/-- An address in the stack page is known by where the program finds it. -/
theorem eq_of_userAddress (page : ℕ) {b : ℕ} (ha : page ≤ a ∧ a ≤ page + pageSize)
    (hb : page ≤ b ∧ b ≤ page + pageSize)
    (h : BitVec.ofNat 64 (userStackPage + (a - page)) =
      BitVec.ofNat 64 (userStackPage + (b - page))) : a = b := by
  have hnat := congrArg BitVec.toNat h
  rw [BitVec.toNat_ofNat, BitVec.toNat_ofNat] at hnat
  simp only [userStackPage, pageSize] at *
  omega

theorem forall₂_cString_unique : ∀ {addrs : List ℕ} {args args' : List (List UInt8)},
    List.Forall₂ m.CString addrs args → List.Forall₂ m.CString addrs args' → args = args'
  | [], _, _, .nil, .nil => rfl
  | _ :: _, _, _, .cons h hrest, .cons h' hrest' => by
    rw [h.unique h', forall₂_cString_unique hrest hrest']

section Found

variable (h : ArgumentsAt page args sp m array addrs)
include h

theorem ArgumentsAt.array_mem : page ≤ array ∧ array + 8 * (args.length + 1) ≤ page + pageSize :=
  h.inside (array, 8 * (args.length + 1)) (by simp [objects])

theorem ArgumentsAt.addr_mem (ha : a ∈ addrs) : page ≤ a ∧ a ≤ page + pageSize := by
  obtain ⟨i, hi⟩ := List.mem_iff_getElem?.mp ha
  have hlt : i < args.length := by
    rw [← h.strings.length_eq]
    exact (List.getElem?_eq_some_iff.mp hi).1
  have hobject : (a, args[i].length + 1) ∈ objects sp array addrs args := by
    refine List.mem_cons_of_mem _ (List.mem_cons_of_mem _ (List.mem_cons_of_mem _ ?_))
    refine List.mem_iff_getElem?.mpr ⟨i, ?_⟩
    rw [List.getElem?_zipWith, hi, List.getElem?_eq_getElem hlt]
  have hinside := h.inside _ hobject
  dsimp only at hinside
  omega

end Found

/-- **The arguments are determined** by what is on the stack. -/
theorem Passed.unique {args' : List (List UInt8)} (h : Passed page args sp m)
    (h' : Passed page args' sp m) : args = args' := by
  obtain ⟨array, addrs, h⟩ := h
  obtain ⟨array', addrs', h'⟩ := h'
  have harray := h.array_mem
  have harray' := h'.array_mem
  obtain rfl : array = array' :=
    eq_of_userAddress page (by omega) (by omega) (h.argv.symm.trans h'.argv)
  have hcount : args.length = args'.length := by
    have hnat := congrArg BitVec.toNat (h.argc.symm.trans h'.argc)
    rw [BitVec.toNat_ofNat, BitVec.toNat_ofNat] at hnat
    simp only [pageSize] at *
    omega
  have hlen := h.strings.length_eq
  have hlen' := h'.strings.length_eq
  obtain rfl : addrs = addrs' := by
    refine List.ext_getElem (by omega) fun i hi hi' => ?_
    have hget := List.getElem?_eq_getElem hi
    have hget' := List.getElem?_eq_getElem hi'
    refine eq_of_userAddress page (h.addr_mem (List.getElem_mem hi))
      (h'.addr_mem (List.getElem_mem hi')) ?_
    exact (h.pointers i _ hget).symm.trans (h'.pointers i _ hget')
  exact forall₂_cString_unique h.strings h'.strings

/-! ### The call -/

/-- **What the call does**, for the strings that the translations lead to. -/
theorem copyArguments_eq (hargv : argv ≠ 0) (hptrs : Argv s.mem argv ptrs) (hlt : ptrs.length < fuel) :
    copyArgumentsToUserStack fuel pgd page argv s = (do
      operatorNew (8 + 8 * ptrs.length)
      operatorNew (8 * ptrs.length)
      let strings ← readStrings fuel pgd argv s ptrs.length 0
      strings.forM fun string => operatorNew (string.length + 1)
      let (sp, m) ← layArguments fuel page strings s.mem
      return (sp, { s with mem := m })) := by
  rw [copyArgumentsToUserStack, if_neg hargv, probeArgc_eq (i := 0) hptrs hlt, ok_bind, Nat.zero_add]

theorem zero_notMem_of_reaches : ∀ {ptrs : List (BitVec 64)} {args : List (List UInt8)},
    List.Forall₂ (Reaches pgd s) ptrs args → ∀ string ∈ args, 0 ∉ string
  | [], _, .nil => by simp
  | _ :: _, _, .cons ⟨_, _, hstring⟩ hrest =>
    List.forall_mem_cons.mpr ⟨hstring.zero_notMem, zero_notMem_of_reaches hrest⟩

theorem le_room (h : string ∈ args) : round16 (string.length + 1) ≤ room args :=
  List.le_sum_of_mem (List.mem_map_of_mem h)

/-- Arguments that are on the stack are the strings that the translations lead to. -/
theorem reaches_of_passed (hpage : IsFrame page) (hargv : argv ≠ 0) (hptrs : Argv s.mem argv ptrs)
    (hlt : ptrs.length < fuel)
    (hcall : copyArgumentsToUserStack fuel pgd page argv s = .ok (sp, s'))
    (hpassed : Passed page args sp s'.mem) :
    args ≠ [] ∧ List.Forall₂ (Reaches pgd s) ptrs args := by
  rw [copyArguments_eq hargv hptrs hlt] at hcall
  obtain ⟨⟨⟩, -, hcall⟩ := bind_eq_ok.mp hcall
  obtain ⟨⟨⟩, hnew, hcall⟩ := bind_eq_ok.mp hcall
  obtain ⟨strings, hread, hcall⟩ := bind_eq_ok.mp hcall
  obtain ⟨⟨⟩, -, hcall⟩ := bind_eq_ok.mp hcall
  obtain ⟨⟨sp', m'⟩, hlay, hcall⟩ := bind_eq_ok.mp hcall
  cases pure_eq_ok.mp hcall
  obtain ⟨hall, -⟩ := (readStrings_eq_ok_iff (i := 0) hptrs).mp hread
  have hin : page ≤ sp := by
    obtain ⟨array, addrs, h⟩ := hpassed
    exact (h.inside (sp, 4) List.mem_cons_self).1
  have hlaid := (layArguments_spec hpage (zero_notMem_of_reaches hall) hlay).2.1 hin
  rw [← hlaid.unique hpassed]
  refine ⟨fun hnil => ?_, hall⟩
  have hzero : ptrs.length = 0 := hall.length_eq.trans (hnil ▸ rfl)
  rw [hzero] at hnew
  cases hnew

/-- **When the arguments reach the program.** For every `argv` and all strings that fit in the
stack page: exactly if there is one at least, and each of the strings is what is found in physical
memory from the translation of its address on. -/
theorem passed_iff (hpage : IsFrame page) (hargv : argv ≠ 0) (hptrs : Argv s.mem argv ptrs)
    (hcount : args.length = ptrs.length) (hfits : FitInPage args) (hfuel : pageSize ≤ fuel) :
    (∃ sp s', copyArgumentsToUserStack fuel pgd page argv s = .ok (sp, s') ∧
        Passed page args sp s'.mem) ↔
      args ≠ [] ∧ List.Forall₂ (Reaches pgd s) ptrs args := by
  have hbytes := le_round16 (8 * (args.length + 2))
  have hroom := hfits
  rw [FitInPage] at hroom
  constructor
  · rintro ⟨sp, s', hcall, hpassed⟩
    exact reaches_of_passed hpage hargv hptrs (by omega) hcall hpassed
  · rintro ⟨hne, hall⟩
    have hzero := zero_notMem_of_reaches hall
    have hlens : ∀ string ∈ args, string.length + 1 < pageSize := fun string hstring => by
      have hle := le_room hstring
      have hle' := le_round16 (string.length + 1)
      omega
    have hpos := List.length_pos_iff.mpr hne
    have hnew : ∀ n, 0 < n → n ≤ 2 * pageSize → operatorNew n = .ok () := fun n h₀ hle =>
      operatorNew_eq_ok.mpr ⟨h₀, hle.trans (by decide)⟩
    obtain ⟨sp, m', hlay⟩ := exists_layArguments (m := s.mem) hfuel hpage hzero hfits
    obtain ⟨hsp, hpassed, -⟩ := layArguments_spec hpage hzero hlay
    refine ⟨sp, { s with mem := m' }, ?_, hpassed (by omega)⟩
    rw [copyArguments_eq hargv hptrs (by omega), hnew _ (by omega) (by omega), ok_bind,
      hnew _ (by omega) (by omega), ok_bind, (readStrings_eq_ok_iff (i := 0) hptrs).mpr
        ⟨hall, fun string hstring => by have := hlens string hstring; omega⟩, ok_bind,
      forM_eq_ok.mpr fun string hstring => hnew _ (by omega) (by have := hlens string hstring; omega),
      ok_bind, hlay, ok_bind]
    rfl

/-! ### Strings of user programs -/

/-- The string that a program has at an address. -/
def UserString (space : Space) : ℕ → List UInt8 → Prop
  | v, [] => space v = some 0
  | v, b :: string => space v = some b ∧ b ≠ 0 ∧ UserString space (v + 1) string

instance UserString.instDecidable (space : Space) : (v : ℕ) → (string : List UInt8) →
    Decidable (UserString space v string)
  | v, [] => inferInstanceAs (Decidable (space v = some 0))
  | v, b :: string =>
    have := UserString.instDecidable space (v + 1) string
    inferInstanceAs (Decidable (space v = some b ∧ b ≠ 0 ∧ UserString space (v + 1) string))

/-- A string of a program, where the program has memory as it is. -/
theorem UserString.cString {space : Space} : ∀ {string : List UInt8} {v p : ℕ},
    UserString space v string → (∀ k ≤ string.length, space (v + k) = some (m (p + k))) →
      m.CString p string
  | [], _, _, h, hspace => Option.some.inj ((hspace 0 (Nat.le_refl 0)).symm.trans h)
  | b :: string, v, p, h, hspace => by
    refine ⟨Option.some.inj ((hspace 0 (Nat.zero_le _)).symm.trans h.1), h.2.1, h.2.2.cString ?_⟩
    intro k hk
    have hnext := hspace (k + 1) (Nat.succ_le_succ hk)
    rwa [Nat.add_comm k 1, ← Nat.add_assoc, ← Nat.add_assoc] at hnext

theorem UserString.first {space : Space} {v : ℕ} (h : UserString space v string) :
    ∃ b, space v = some b := by
  cases string with
  | nil => exact ⟨0, h⟩
  | cons b string => exact ⟨b, h.1⟩

/-- **A string in one page** is found where its address leads to. -/
theorem reaches_of_page {w : World} {v : ℕ} (h : Inv w) (hpgd : pgd ∈ w.maps) (hv : v < sizeMod)
    (hstring : UserString (load pgd w.s.mem) v string)
    (hoff : pageOffset v + string.length < pageSize) :
    Reaches pgd w.s (BitVec.ofNat 64 v) string := by
  obtain ⟨b, hb⟩ := hstring.first
  obtain ⟨e, hlook, -⟩ := Option.map_eq_some_iff.mp hb
  have hframe := (h.mapped_frame hpgd hlook).1
  have hnat : (BitVec.ofNat 64 v).toNat = v := by
    rw [BitVec.toNat_ofNat]
    exact Nat.mod_eq_of_lt hv
  refine ⟨frame e + pageOffset v, fun fuel => ?_, hstring.cString fun k hk => ?_⟩
  · rw [hnat]
    exact getPhysicalAddress_eq hlook hframe
  · have hpath : pathOf (v + k) = pathOf v := by
      refine pathOf_congr ?_
      simp only [pageOffset, pageSize] at *
      omega
    have hoffset : pageOffset (v + k) = pageOffset v + k := by
      simp only [pageOffset, pageSize] at *
      omega
    rw [← hpath] at hlook
    rw [load_eq_some hlook, hoffset, Nat.add_assoc]

/-! ### A program with two pages -/

/-- The bytes of the first page: `argv` for a string at the end of the page, `argv` for a short
string, the short string, and the first byte of the other one. -/
def firstPage (k : ℕ) : UInt8 :=
  if k = 0x10 then 0xff
  else if k = 0x11 then 0x0f
  else if k = 0x20 then 0x30
  else if k = 0x30 ∨ k = 0xfff then 97
  else 0

/-- The bytes of the second page: the string goes on. -/
def secondPage (k : ℕ) : UInt8 := if k = 0 then 98 else 0

/-- The calls that map two pages, and obtain a page for the stack. -/
def argumentPages : Exec ((ℕ × ℕ × State × MemoryManager.State × State) × (ℕ × MemoryManager.State) ×
    State × ℕ × MemoryManager.State) := do
  let first ← onePage userPageRW
  let second ← MemoryManager.getFreePage 20 true first.2.2.2.2.mm
  let s ← map 20 first.1 0x1000 second.1 userPageRW
    { first.2.2.2.2 with mm := second.2, live := second.1 :: first.2.2.2.2.live }
  return (first, second, s, ← MemoryManager.getFreePage 20 true s.mm)

/-- The state then, with the bytes in the two pages. -/
def argumentState (p q page : ℕ) (mm : MemoryManager.State) (s : State) : State where
  mm := mm
  mem := overwritten q secondPage (overwritten p firstPage s.mem)
  live := page :: s.live

/-- What is found there. -/
def ArgumentsFound (pgd p page : ℕ) (s : State) : Prop :=
  s.mem.readWord (p + 0x10) = 0xfff ∧ s.mem.readWord (p + 0x18) = 0 ∧
    s.mem.readWord (p + 0x20) = 0x30 ∧ s.mem.readWord (p + 0x28) = 0 ∧
    UserString (load pgd s.mem) 0xfff [97, 98] ∧ UserString (load pgd s.mem) 0x30 [97] ∧
    check (fun x => x == p + 0xfff) (getPhysicalAddress 0 pgd 0xfff s) = true ∧
    s.mem (p + 0x1000) ≠ 98 ∧
    check (fun _ => true) (copyArgumentsToUserStack 20 pgd page (p + 0x10) s) = true

instance (pgd p page : ℕ) (s : State) : Decidable (ArgumentsFound pgd p page s) :=
  inferInstanceAs (Decidable (_ ∧ _))

theorem argumentPages_checks : check (fun r =>
    let pgd := r.1.1
    let p := r.1.2.1
    let q := r.2.1.1
    let s := r.2.2.1
    let page := r.2.2.2.1
    decide (pgd ≠ 0 ∧ p ≠ 0 ∧ toPhysical p = p ∧ q ≠ 0 ∧ toPhysical q = q ∧ page ≠ 0 ∧
      toPhysical page = page ∧ (look 3 pgd s.mem (pathOf 0)).map frame = some p ∧
      refCount p s = 1 ∧
      (look 3 pgd (overwritten p firstPage s.mem) (pathOf 0x1000)).map frame = some q ∧
      refCount q s = 1 ∧
      ArgumentsFound pgd p page (argumentState p q page r.2.2.2.2 s))) argumentPages = true := by
  decide +kernel

/-- The run of the program with two pages. -/
theorem exists_argumentPages : ∃ acts w pgd p page, Trace SpaceStep World.zero acts w ∧ pgd ∈ w.maps ∧
    page ∈ w.others ∧ p ≠ 0 ∧ ArgumentsFound pgd p page w.s := by
  obtain ⟨⟨⟨pgd, p, s₁, mm₁, s₂⟩, ⟨q, mm₂⟩, s₃, page, mm₃⟩, hrun, hr⟩ :=
    exists_ok_of_check argumentPages_checks
  obtain ⟨hpgd, hp, hphysP, hq, hphysQ, hpage, hphys, hlookP, honeP, hlookQ, honeQ, hfound⟩ :=
    of_decide_eq_true hr
  obtain ⟨r₁, honePage, hrun⟩ := bind_eq_ok.mp hrun
  obtain ⟨r₂, hsecond, hrun⟩ := bind_eq_ok.mp hrun
  obtain ⟨r₃, hmap, hrun⟩ := bind_eq_ok.mp hrun
  obtain ⟨r₄, hstack, hrun⟩ := bind_eq_ok.mp hrun
  cases pure_eq_ok.mp hrun
  have hmem : pgd ∈ [pgd] := List.mem_singleton_self pgd
  obtain ⟨hstep₁, hstep₂, hstep₃⟩ := steps_of_onePage honePage hpgd hp hphysP (by decide)
  obtain ⟨hstep₄, hstep₅⟩ := steps_of_page (w := ⟨s₂, [], [], [pgd]⟩) hsecond hmap hmem hq hphysQ
    (by decide)
  have htrace := ((((Trace.single (SpaceStep.construct hstep₁ hpgd)).snoc (.manage hstep₂)).snoc
    (.map hstep₃)).snoc (.manage hstep₄)).snoc (.map hstep₅)
  obtain ⟨e, hlook, hframe⟩ := Option.map_eq_some_iff.mp hlookP
  obtain ⟨e', hlook', hframe'⟩ := Option.map_eq_some_iff.mp hlookQ
  have hfill := SpaceStep.fill (w := ⟨s₃, [], [], [pgd]⟩) (v := 0) firstPage hmem hlook
    ((congrArg (refCount · s₃) hframe).trans honeP)
  rw [hframe] at hfill
  have hfill' := SpaceStep.fill (w := ⟨⟨s₃.mm, overwritten p firstPage s₃.mem, s₃.live⟩, [], [], [pgd]⟩)
    (v := 0x1000) secondPage hmem hlook'
    ((congrArg (refCount · s₃) hframe').trans honeQ)
  rw [hframe'] at hfill'
  have hpages := step_getFreePage (w := ⟨⟨s₃.mm, overwritten q secondPage
    (overwritten p firstPage s₃.mem), s₃.live⟩, [], [], [pgd]⟩) hstack hpage hphys
  exact ⟨_, _, pgd, p, page, ((htrace.snoc hfill).snoc hfill').snoc (.manage hpages), hmem,
    List.mem_cons_self, hp, hfound⟩

/-- **A string across two pages.** The program has `"ab"` at the end of its first page and the start
of the second one, and passes it. The call returns, but the new program gets another string. -/
theorem straddling_not_passed : ∃ acts w pgd page argv sp s', Trace SpaceStep World.zero acts w ∧
    pgd ∈ w.maps ∧ page ∈ w.others ∧ Argv w.s.mem argv [0xfff] ∧
      UserString (load pgd w.s.mem) 0xfff [97, 98] ∧ FitInPage [[97, 98]] ∧
      copyArgumentsToUserStack 20 pgd page argv w.s = .ok (sp, s') ∧
      ¬Passed page [[97, 98]] sp s'.mem := by
  obtain ⟨acts, w, pgd, p, page, htrace, hpgd, hpage, hp, hfound⟩ := exists_argumentPages
  obtain ⟨hptr, hnull, -, -, hstring, -, hphys, hbyte, hcall⟩ := hfound
  obtain ⟨x, hx, hEq⟩ := exists_ok_of_check hphys
  obtain rfl : x = p + 0xfff := by simpa using hEq
  obtain ⟨⟨sp, s'⟩, hcall, -⟩ := exists_ok_of_check hcall
  have hinv := (refines_of_trace htrace).inv
  have hargv : Argv w.s.mem (p + 0x10) [0xfff] := ⟨hptr, by decide, hnull⟩
  refine ⟨acts, w, pgd, page, p + 0x10, sp, s', htrace, hpgd, hpage, hargv, hstring, by decide, hcall,
    fun hpassed => ?_⟩
  have hall := reaches_of_passed (hinv.of_others hpage).1 (by omega) hargv (by decide) hcall hpassed
  obtain ⟨p', hp', hat⟩ := (List.forall₂_cons.mp hall.2).1
  obtain rfl : p + 0xfff = p' := Except.ok.inj (hx.symm.trans (hp' 0))
  exact hbyte hat.2.2.1

/-- The short string of the program. -/
theorem exists_shortArgument : ∃ (w : World) (pgd page argv : ℕ), pgd ∈ w.maps ∧ IsFrame page ∧
    argv ≠ 0 ∧ Argv w.s.mem argv [0x30] ∧ UserString (load pgd w.s.mem) 0x30 [97] ∧
      Reaches pgd w.s 0x30 [97] := by
  obtain ⟨acts, w, pgd, p, page, htrace, hpgd, hpage, hp, hfound⟩ := exists_argumentPages
  obtain ⟨-, -, hptr, hnull, -, hstring, -⟩ := hfound
  have hinv := (refines_of_trace htrace).inv
  exact ⟨w, pgd, page, p + 0x20, hpgd, (hinv.of_others hpage).1, by omega,
    ⟨hptr, by decide, hnull⟩, hstring,
    reaches_of_page (v := 0x30) hinv hpgd (by decide) hstring (by decide)⟩

/-- A short string is passed. -/
theorem passed_iff_short_string : ∃ (w : World) (pgd page argv sp : ℕ) (s' : State), pgd ∈ w.maps ∧
    UserString (load pgd w.s.mem) 0x30 [97] ∧
      copyArgumentsToUserStack pageSize pgd page argv w.s = .ok (sp, s') ∧
      Passed page [[97]] sp s'.mem := by
  obtain ⟨w, pgd, page, argv, hpgd, hpage, hne, hargv, hstring, hreaches⟩ := exists_shortArgument
  obtain ⟨sp, s', hcall, hpassed⟩ := (passed_iff hpage hne hargv rfl (by decide)
    (le_refl pageSize)).mpr ⟨List.cons_ne_nil _ _, .cons hreaches .nil⟩
  exact ⟨w, pgd, page, argv, sp, s', hpgd, hstring, hcall, hpassed⟩

end Valkyrie.VMMap
