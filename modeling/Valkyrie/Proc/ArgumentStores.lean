import Valkyrie.Proc.Arguments

/-!
# Where the arguments of a program are written

`Task::copy_arguments_to_user_stack` once more, this time with all of its stores. The functions
below follow those of `Valkyrie.Proc.Arguments` step by step and return the stores instead of the
memory. Replaying them gives the memory that the call leaves, if it does not abort before for want
of room on the kernel heap (`Valkyrie.VMMap.copyArguments_eq_replay`), so nothing else is written.

The stack pointer is lowered by the room that each string takes, and is never compared with the
start of the page. So the stores stay in the page exactly if all of it adds up to at most a page.
-/

namespace Valkyrie

namespace VMMap

open Exec MemoryManager

/-! ### Stores -/

/-- A store of the kernel. -/
inductive Store where
  /-- `strcpy`: the bytes and a zero. -/
  | string (a : ℕ) (bytes : List UInt8) : Store
  /-- A pointer. -/
  | pointer (a : ℕ) (value : BitVec 64) : Store
  /-- An `int`. -/
  | int (a : ℕ) (value : BitVec 32) : Store

namespace Store

/-- The first byte that is written. -/
def address : Store → ℕ
  | string a _ | pointer a _ | int a _ => a

/-- How many bytes are written. -/
def length : Store → ℕ
  | string _ bytes => bytes.length + 1
  | pointer _ _ => 8
  | int _ _ => 4

/-- The memory after the store. -/
def apply (m : Mem) : Store → Mem
  | string a bytes => m.put a (bytes ++ [0])
  | pointer a value => m.writeWord a value
  | int a value => m.writeBytes a 4 value

/-- All bytes that are written are between two addresses. -/
def Within (low high : ℕ) (store : Store) : Prop :=
  low ≤ store.address ∧ store.address + store.length ≤ high

theorem Within.mono {low low' high high' : ℕ} {store : Store} (h : Within low high store)
    (hlow : low' ≤ low) (hhigh : high ≤ high') : Within low' high' store :=
  ⟨hlow.trans h.1, h.2.trans hhigh⟩

end Store

/-- The memory after some stores. -/
def replay (stores : List Store) (m : Mem) : Mem := stores.foldl Store.apply m

/-! ### The calls -/

/-- The stores of the loop that copies the strings. -/
def storeStrings (fuel : ℕ) : List (List UInt8) → ℕ → Exec (List ℕ × ℕ × List Store)
  | [], sp => return ([], sp, [])
  | string :: strings, sp => do
    let (addrs, sp, stores) ← storeStrings fuel strings sp
    let len ← roundUpToMultipleOfN fuel (string.length + 1) 16
    let sp ← lower sp len
    return (sp :: addrs, sp, stores ++ [.string sp string])

/-- The stores of the loop that writes the array of pointers. -/
def storePointers : List ℕ → ℕ → List Store
  | [], array => [.pointer array 0]
  | a :: addrs, array => .pointer array (userAddress a) :: storePointers addrs (array + 8)

/-- The stores of the end of the function. -/
def storeArgc (argc : ℕ) (copiedArgvPtr : BitVec 64) (sp : ℕ) : Exec (ℕ × List Store) := do
  let sp ← lower sp 8
  let store := .pointer sp copiedArgvPtr
  let sp ← lower sp 8
  if sp % 16 ≠ 0 then .error (.panic "sys_exec: user SP misaligned!\n")
  else return (sp, [store, .int sp (BitVec.ofNat 32 argc)])

/-- The stores once the strings are in the kernel heap. -/
def storeArguments (fuel page : ℕ) (strings : List (List UInt8)) : Exec (ℕ × List Store) := do
  let (addrs, sp, stores) ← storeStrings fuel strings (page + pageSize)
  let len ← roundUpToMultipleOfN fuel (8 * (strings.length + 2)) 16
  let array ← lower sp len
  let (sp, stores') ← storeArgc strings.length (userAddress array) array
  return (sp, stores ++ storePointers addrs array ++ stores')

/-- **The stores of `copy_arguments_to_user_stack`**, in the order in which they are made. -/
def argumentStores (fuel pgd page argv : ℕ) (s : State) : Exec (ℕ × List Store) :=
  if argv = 0 then storeArgc 0 0 (page + pageSize)
  else do
    let argc ← probeArgc s.mem argv fuel 0
    let strings ← readStrings fuel pgd argv s argc 0
    storeArguments fuel page strings

variable {m : Mem} {s s' : State} {args : List (List UInt8)} {addrs : List ℕ} {stores : List Store}
  {fuel pgd page argv sp top array : ℕ}

/-! ### The memory after the stores -/

theorem copyStrings_eq_replay : ∀ {args : List (List UInt8)}, copyStrings fuel args top m = (do
    let (addrs, sp, stores) ← storeStrings fuel args top
    return (addrs, sp, replay stores m))
  | [] => rfl
  | string :: args => by
    rw [copyStrings, storeStrings, copyStrings_eq_replay]
    cases storeStrings fuel args top with
    | error e => rfl
    | ok r =>
      obtain ⟨addrs, sp, stores⟩ := r
      simp only [ok_bind, pure_bind, bind_assoc, replay, List.foldl_append, List.foldl_cons,
        List.foldl_nil, Store.apply]

theorem copyPointers_eq_replay : ∀ {addrs : List ℕ} {array : ℕ} {m : Mem},
    copyPointers addrs array m = replay (storePointers addrs array) m
  | [], _, _ => rfl
  | a :: addrs, array, m => by
    rw [copyPointers, copyPointers_eq_replay, storePointers, replay, replay, List.foldl_cons,
      Store.apply]

theorem pushArgc_eq_replay {argc : ℕ} {ptr : BitVec 64} : pushArgc argc ptr sp m = (do
    let (sp, stores) ← storeArgc argc ptr sp
    return (sp, replay stores m)) := by
  rw [pushArgc, storeArgc]
  cases lower sp 8 with
  | error e => rfl
  | ok sp' =>
    simp only [ok_bind]
    cases lower sp' 8 with
    | error e => rfl
    | ok sp'' =>
      simp only [ok_bind]
      split_ifs <;> rfl

theorem layArguments_eq_replay : layArguments fuel page args m = (do
    let (sp, stores) ← storeArguments fuel page args
    return (sp, replay stores m)) := by
  rw [layArguments, storeArguments, copyStrings_eq_replay]
  simp only [bind_assoc, pure_bind]
  refine bind_congr ?_
  rintro ⟨addrs, sp, stores⟩
  refine bind_congr fun len => bind_congr fun array => ?_
  rw [pushArgc_eq_replay]
  refine bind_congr ?_
  rintro ⟨sp, stores'⟩
  simp only [copyPointers_eq_replay, replay, List.foldl_append]

/-- **A call that returns has made these stores**, and has changed nothing else. -/
theorem copyArguments_eq_replay
    (h : copyArgumentsToUserStack fuel pgd page argv s = .ok (sp, s')) : ∃ stores,
      argumentStores fuel pgd page argv s = .ok (sp, stores) ∧
        s' = { s with mem := replay stores s.mem } := by
  rw [copyArgumentsToUserStack] at h
  rw [argumentStores]
  split_ifs at h ⊢
  · rw [pushArgc_eq_replay, bind_assoc] at h
    obtain ⟨⟨sp', stores⟩, hstores, h⟩ := bind_eq_ok.mp h
    cases pure_eq_ok.mp h
    exact ⟨stores, hstores, rfl⟩
  · obtain ⟨argc, hargc, h⟩ := bind_eq_ok.mp h
    obtain ⟨⟨⟩, -, h⟩ := bind_eq_ok.mp h
    obtain ⟨⟨⟩, -, h⟩ := bind_eq_ok.mp h
    obtain ⟨strings, hstrings, h⟩ := bind_eq_ok.mp h
    obtain ⟨⟨⟩, -, h⟩ := bind_eq_ok.mp h
    rw [layArguments_eq_replay, bind_assoc] at h
    obtain ⟨⟨sp', stores⟩, hstores, h⟩ := bind_eq_ok.mp h
    cases pure_eq_ok.mp h
    exact ⟨stores, by rw [hargc, ok_bind, hstrings, ok_bind, hstores], rfl⟩

/-! ### Where the stores are -/

/-- The strings are stored between the old stack pointer and the new one. -/
theorem within_storeStrings (htop : top ≤ 2 ^ 63) : ∀ {args : List (List UInt8)} {addrs : List ℕ}
    {sp : ℕ} {stores : List Store}, storeStrings fuel args top = .ok (addrs, sp, stores) →
      sp + room args = top ∧ addrs.length = args.length ∧ ∀ store ∈ stores, store.Within sp top
  | [], _, _, _, hcall => by
    cases pure_eq_ok.mp hcall
    exact ⟨rfl, rfl, by simp⟩
  | string :: args, _, _, _, hcall => by
    obtain ⟨⟨addrs, next, stores⟩, hrest, hcall⟩ := bind_eq_ok.mp hcall
    obtain ⟨len, hlen, hcall⟩ := bind_eq_ok.mp hcall
    obtain ⟨sp, hlower, hcall⟩ := bind_eq_ok.mp hcall
    cases pure_eq_ok.mp hcall
    obtain ⟨hroom, hlength, hwithin⟩ := within_storeStrings htop hrest
    obtain ⟨hle, rfl⟩ := lower_eq_ok hlower
    obtain rfl := roundUp_eq hlen (Nat.succ_pos _) (by omega)
    have hbytes := le_round16 (string.length + 1)
    refine ⟨by rw [room_cons]; omega, by rw [List.length_cons, List.length_cons, hlength],
      fun store hstore => ?_⟩
    rcases List.mem_append.mp hstore with hstore | hstore
    · exact (hwithin store hstore).mono (Nat.sub_le _ _) (le_refl top)
    · obtain rfl := List.mem_singleton.mp hstore
      refine ⟨le_refl _, ?_⟩
      dsimp only [Store.address, Store.length]
      omega

theorem within_storePointers : ∀ {addrs : List ℕ} {array : ℕ},
    ∀ store ∈ storePointers addrs array, store.Within array (array + 8 * (addrs.length + 1))
  | [], array, store, hstore => by
    obtain rfl := List.mem_singleton.mp hstore
    exact ⟨le_refl _, le_refl _⟩
  | a :: addrs, array, store, hstore => by
    rw [List.length_cons]
    rcases List.mem_cons.mp hstore with rfl | hstore
    · refine ⟨le_refl _, ?_⟩
      dsimp only [Store.address, Store.length]
      omega
    · exact (within_storePointers store hstore).mono (by omega) (by omega)

theorem within_storeArgc {argc : ℕ} {ptr : BitVec 64}
    (hcall : storeArgc argc ptr array = .ok (sp, stores)) : sp + 16 = array ∧
      .int sp (BitVec.ofNat 32 argc) ∈ stores ∧ ∀ store ∈ stores, store.Within sp array := by
  obtain ⟨sp₁, hlower₁, hcall⟩ := bind_eq_ok.mp hcall
  obtain ⟨sp₂, hlower₂, hcall⟩ := bind_eq_ok.mp hcall
  obtain ⟨hle₁, rfl⟩ := lower_eq_ok hlower₁
  obtain ⟨hle₂, rfl⟩ := lower_eq_ok hlower₂
  split_ifs at hcall
  cases pure_eq_ok.mp hcall
  refine ⟨by omega, by simp, fun store hstore => ?_⟩
  rcases List.mem_cons.mp hstore with rfl | hstore
  · simp only [Store.Within, Store.address, Store.length]
    omega
  · obtain rfl := List.mem_singleton.mp hstore
    simp only [Store.Within, Store.address, Store.length]
    omega

/-- **The stores of the layout** are between the last stack pointer and the end of the page. -/
theorem within_storeArguments (hpage : IsFrame page)
    (hcall : storeArguments fuel page args = .ok (sp, stores)) :
    sp + (room args + round16 (8 * (args.length + 2)) + 16) = page + pageSize ∧
      (∃ store ∈ stores, store.address = sp) ∧
      ∀ store ∈ stores, store.Within sp (page + pageSize) := by
  have htop := hpage.le_two_pow
  obtain ⟨⟨addrs, low, strings⟩, hstrings, hcall⟩ := bind_eq_ok.mp hcall
  obtain ⟨len, hround, hcall⟩ := bind_eq_ok.mp hcall
  obtain ⟨array, hlower, hcall⟩ := bind_eq_ok.mp hcall
  obtain ⟨⟨sp', pushed⟩, hpush, hcall⟩ := bind_eq_ok.mp hcall
  cases pure_eq_ok.mp hcall
  obtain ⟨hroom, hlength, hwithin⟩ := within_storeStrings htop hstrings
  obtain ⟨hle, harray⟩ := lower_eq_ok hlower
  have hlen := roundUp_eq hround (by omega) (by omega)
  have hbytes := le_round16 (8 * (args.length + 2))
  rw [← hlen] at hbytes ⊢
  obtain ⟨hsp, hint, hpushed⟩ := within_storeArgc hpush
  refine ⟨by omega, ⟨_, List.mem_append_right _ hint, rfl⟩, fun store hstore => ?_⟩
  rcases List.mem_append.mp hstore with hstore | hstore
  · rcases List.mem_append.mp hstore with hstore | hstore
    · exact (hwithin store hstore).mono (by omega) (le_refl _)
    · exact (within_storePointers store hstore).mono (by omega) (by omega)
  · exact (hpushed store hstore).mono (le_refl _) (by omega)

/-! ### The page -/

/-- **The arguments that are passed**: those that the array leads to, or none without an array. -/
def ArgumentVector (pgd argv : ℕ) (s : State) (args : List (List UInt8)) : Prop :=
  argv = 0 ∧ args = [] ∨
    argv ≠ 0 ∧ ∃ ptrs, Argv s.mem argv ptrs ∧ List.Forall₂ (Reaches pgd s) ptrs args

/-- The call returns, and has written to the page only. -/
def StaysInPage (pgd page argv : ℕ) (s : State) : Prop :=
  ∃ fuel sp stores, argumentStores fuel pgd page argv s = .ok (sp, stores) ∧
    ∀ store ∈ stores, store.Within page (page + pageSize)

/-- Without an array, there is room for two words. -/
theorem staysInPage_of_null (hpage : IsFrame page) : StaysInPage pgd page 0 s := by
  have haligned : (page + pageSize) % 16 = 0 := by
    obtain ⟨k, hk⟩ := hpage.bounds.2.2
    simp only [pageSize] at *
    omega
  obtain ⟨⟨sp, m⟩, hpush⟩ := exists_pushArgc (m := s.mem) 0 0
    (show 16 ≤ page + pageSize by simp only [pageSize]; omega) haligned
  rw [pushArgc_eq_replay] at hpush
  obtain ⟨⟨sp', stores⟩, hstore, -⟩ := bind_eq_ok.mp hpush
  obtain ⟨hsp, -, hwithin⟩ := within_storeArgc hstore
  have hle : page ≤ sp' := by
    simp only [pageSize] at hsp
    omega
  refine ⟨0, sp', stores, ?_, fun store hmem => (hwithin store hmem).mono hle (le_refl _)⟩
  rw [argumentStores, if_pos rfl, hstore]

theorem eq_of_probeArgc : ∀ {ptrs : List (BitVec 64)} {fuel i argc : ℕ},
    Argv m (argv + 8 * i) ptrs → probeArgc m argv fuel i = .ok argc → argc = i + ptrs.length
  | [], fuel + 1, i, argc, h, hcall => by
    have hnull : m.readWord (argv + 8 * i) = 0 := h
    rw [probeArgc, if_pos hnull] at hcall
    exact (pure_eq_ok.mp hcall).symm
  | w :: ws, fuel + 1, i, argc, h, hcall => by
    obtain ⟨hw, hne, hrest⟩ := h
    have hnext : Argv m (argv + 8 * (i + 1)) ws := by rwa [Nat.mul_succ, ← Nat.add_assoc]
    rw [probeArgc, hw, if_neg hne] at hcall
    rw [eq_of_probeArgc hnext hcall, List.length_cons, Nat.add_assoc, Nat.add_comm 1]

theorem forall₂_reaches_unique : ∀ {ptrs : List (BitVec 64)} {args args' : List (List UInt8)},
    List.Forall₂ (Reaches pgd s) ptrs args → List.Forall₂ (Reaches pgd s) ptrs args' → args = args'
  | [], _, _, .nil, .nil => rfl
  | _ :: _, _, _, .cons ⟨p, hp, h⟩ hrest, .cons ⟨p', hp', h'⟩ hrest' => by
    obtain rfl : p = p' := Except.ok.inj ((hp 0).symm.trans (hp' 0))
    rw [h.unique h', forall₂_reaches_unique hrest hrest']

/-- What is read are the arguments that the array leads to. -/
theorem argumentStores_eq {ptrs : List (BitVec 64)} (hargv : argv ≠ 0)
    (hptrs : Argv s.mem argv ptrs) (hall : List.Forall₂ (Reaches pgd s) ptrs args)
    (hcall : argumentStores fuel pgd page argv s = .ok (sp, stores)) :
    storeArguments fuel page args = .ok (sp, stores) := by
  rw [argumentStores, if_neg hargv] at hcall
  obtain ⟨argc, hprobe, hcall⟩ := bind_eq_ok.mp hcall
  obtain ⟨strings, hread, hcall⟩ := bind_eq_ok.mp hcall
  obtain rfl := eq_of_probeArgc (i := 0) hptrs hprobe
  rw [Nat.zero_add] at hread
  obtain ⟨hall', -⟩ := (readStrings_eq_ok_iff (i := 0) hptrs).mp hread
  rwa [forall₂_reaches_unique hall hall']

/-- The last word is stored at the stack pointer, so it is in the page only if all of it fits. -/
theorem fitInPage_of_staysInPage {ptrs : List (BitVec 64)} (hpage : IsFrame page)
    (hargv : argv ≠ 0) (hptrs : Argv s.mem argv ptrs)
    (hall : List.Forall₂ (Reaches pgd s) ptrs args) (hstays : StaysInPage pgd page argv s) :
    FitInPage args := by
  obtain ⟨fuel, sp, stores, hcall, hin⟩ := hstays
  have hstore := argumentStores_eq hargv hptrs hall hcall
  obtain ⟨hsp, ⟨store, hmem, hEq⟩, -⟩ := within_storeArguments hpage hstore
  have hlow := (hin store hmem).1
  rw [FitInPage]
  omega

/-- The bytes of its page: `argv` with two pointers to one string, and the string. -/
def longPage (k : ℕ) : UInt8 :=
  if k = 0 ∨ k = 8 then 0x20
  else if 0x20 ≤ k ∧ k < 0x20 + 3000 then 97
  else 0

/-- The calls that map a page, and obtain a page for the stack. -/
def pageAndStack : Exec ((ℕ × ℕ × State × MemoryManager.State × State) × ℕ × MemoryManager.State) := do
  let first ← onePage userPageRW
  return (first, ← MemoryManager.getFreePage 20 true first.2.2.2.2.mm)

theorem pageAndStack_checks : check (fun r => decide (r.1.1 ≠ 0 ∧ r.1.2.1 ≠ 0 ∧
    toPhysical r.1.2.1 = r.1.2.1 ∧ r.2.1 ≠ 0 ∧ toPhysical r.2.1 = r.2.1 ∧
    (look 3 r.1.1 r.1.2.2.2.2.mem (pathOf 0)).map frame = some r.1.2.1 ∧
    refCount r.1.2.1 r.1.2.2.2.2 = 1)) pageAndStack = true := by
  decide +kernel

/-- The run of the program, with any bytes in its page. -/
theorem exists_pageAndStack (bytes : ℕ → UInt8) : ∃ acts w pgd p page, Trace SpaceStep World.zero acts w ∧
    pgd ∈ w.maps ∧ page ∈ w.others ∧ p ≠ 0 ∧ (∀ k < pageSize, w.s.mem (p + k) = bytes k) ∧
    ∀ v < pageSize, load pgd w.s.mem v = some (bytes v) := by
  obtain ⟨⟨⟨pgd, p, s₁, mm₁, s₂⟩, page, mm₂⟩, hrun, hr⟩ := exists_ok_of_check pageAndStack_checks
  obtain ⟨hpgd, hp, hphysP, hpage, hphys, hlook, hone⟩ := of_decide_eq_true hr
  obtain ⟨r₁, honePage, hrun⟩ := bind_eq_ok.mp hrun
  obtain ⟨r₂, hstack, hrun⟩ := bind_eq_ok.mp hrun
  cases pure_eq_ok.mp hrun
  have hmem : pgd ∈ [pgd] := List.mem_singleton_self pgd
  obtain ⟨hstep₁, hstep₂, hstep₃⟩ := steps_of_onePage honePage hpgd hp hphysP (by decide)
  have htrace := ((Trace.single (SpaceStep.construct hstep₁ hpgd)).snoc (.manage hstep₂)).snoc
    (.map hstep₃)
  obtain ⟨e, hlook, hframe⟩ := Option.map_eq_some_iff.mp hlook
  have hfill := SpaceStep.fill (w := ⟨s₂, [], [], [pgd]⟩) (v := 0) bytes hmem hlook
    ((congrArg (refCount · s₂) hframe).trans hone)
  rw [hframe] at hfill
  have hpages := step_getFreePage (w := ⟨⟨s₂.mm, overwritten p bytes s₂.mem, s₂.live⟩, [], [], [pgd]⟩)
    hstack hpage hphys
  have hinv := (refines_of_trace htrace).inv
  have hstep := hinv.step_overwritten hmem hlook bytes
  rw [hframe] at hstep
  have hlook' := (hinv.step_look hstep hmem List.not_mem_nil).1
  have hbytes : ∀ k < pageSize, overwritten p bytes s₂.mem (p + k) = bytes k := fun k hk => by
    rw [overwritten, if_pos (by omega), Nat.add_sub_cancel_left]
  refine ⟨_, _, pgd, p, page, (htrace.snoc hfill).snoc (.manage hpages), hmem, List.mem_cons_self, hp,
    hbytes, fun v hv => ?_⟩
  have hpath : pathOf v = pathOf 0 := by
    refine pathOf_congr ?_
    simp only [pageSize] at *
    omega
  have hoff : pageOffset v = v := by
    simp only [pageOffset, pageSize] at *
    omega
  rw [load_eq_some (e := e) (by rw [hpath]; exact (congrFun hlook' _).trans hlook), hframe, hoff]
  exact congrArg some (hbytes v hv)

/-- A run of one byte is a string. -/
theorem userString_replicate {space : Space} {b : UInt8} (hb : b ≠ 0) : ∀ {n v : ℕ},
    (∀ k < n, space (v + k) = some b) → space (v + n) = some 0 →
      UserString space v (List.replicate n b)
  | 0, _, _, hend => hend
  | n + 1, v, h, hend => by
    refine ⟨h 0 (Nat.succ_pos n), hb, userString_replicate hb (fun k hk => ?_) ?_⟩
    · rw [Nat.add_assoc, Nat.add_comm 1]
      exact h (k + 1) (Nat.succ_lt_succ hk)
    · rwa [Nat.add_assoc, Nat.add_comm 1]

end VMMap

end Valkyrie
