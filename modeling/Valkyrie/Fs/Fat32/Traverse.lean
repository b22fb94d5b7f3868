import Mathlib.Data.List.DropRight
import Valkyrie.Fs.Fat32.Create
import Valkyrie.Fs.Fat32.Load

/-!
# Which traversals come to an end

Three loops follow the links of the table: `iterate_children`, the search of `create_child` for a
place, and `get_content`. None of them counts how many clusters it has seen, and a table whose links
lead back to a cluster keeps them going. So they end exactly if the links lead to the mark of the
end, or the loop has a reason to stop before (`Valkyrie.Fat32.traversalsEnd_iff`): an end marker in
the directory, or, for the search, a gap of the right length. A cluster that is not in the partition
is not read, and then the loop sees once more what it has in its buffer (`Valkyrie.Fat32.scanned`).

A loop that writes beyond its buffer does not count as one that ends. `iterate_children` does so at
a name that takes too many bytes, and `get_content` in a file with more clusters than its size says.
Nor does one that has no buffer, for a file of more than 2 MiB.
-/

namespace Valkyrie

namespace Fat32

open Exec

variable {σ : Type} {v : Volume} {d : Disk} {inode : Inode} {n segments : ℕ}

section

variable (v d)

/-- The entries that a loop sees in some clusters, one after the other, with this in its buffer. -/
def scanned : Block → List ℕ → List Item
  | _, [] => []
  | buf, n :: cs =>
    (slots.map fun o => ⟨n, o, entryAt (clusterRead v n buf d) o⟩) ++
      scanned (clusterRead v n buf d) cs

/-- The search of `create_child`. -/
def searchSlot (parent : Inode) (segments fuel : ℕ) : Exec (Block × Place) :=
  eachEntry v d (fun n o e p => return searchEntry segments n o e p) fuel
    (dirFirstClusterNumber v parent) (fun _ => 0) ⟨0, 0, 0⟩

/-- **The traversals end**: `iterate_children` with every callback, `get_content`, and, in a
directory, the search for a name with so many segments. -/
structure TraversalsEnd (inode : Inode) (segments : ℕ) : Prop where
  iterateChildren : ∀ (σ : Type) (f : View → σ → Bool × σ) (x : σ),
    Terminates fun fuel => iterateChildren v inode fuel f x d
  getContent : Terminates fun fuel => getContent v inode fuel d
  search : inode.isDirectory → Terminates fun fuel => searchSlot v d inode segments fuel

end

/-! ### The entries that are seen -/

theorem untilStop_scanned (body : ℕ → ℕ → Entry → σ → Exec (Bool × σ)) (cs : List ℕ) (buf : Block)
    (x : σ) :
    (fun r : Bool × Block × σ => (r.1, r.2.2)) <$> untilStop (fun n (t : Block × σ) => do
        let cluster := clusterRead v n t.1 d
        let (stop, x) ← untilStop (fun o => body n o (entryAt cluster o)) slots t.2
        return (stop, cluster, x)) cs (buf, x) =
      untilStop (fun i => body i.cluster i.offset i.entry) (scanned v d buf cs) x := by
  induction cs generalizing buf x with
  | nil => rfl
  | cons n cs ih =>
    rw [scanned, untilStop_append, untilStop_map, untilStop, map_bind, bind_assoc]
    refine bind_congr ?_
    rintro ⟨stop, x'⟩
    cases stop with
    | true => rfl
    | false => exact ih _ x'

/-- **When the loops through the entries end.** -/
theorem terminates_eachEntry_iff (body : ℕ → ℕ → Entry → σ → Exec (Bool × σ)) (buf : Block) (x : σ) :
    Terminates (fun fuel => eachEntry v d body fuel n buf x) ↔
      ∃ cs h stop y, Path (next v d) (link n) cs h ∧
        untilStop (fun i => body i.cluster i.offset i.entry) (scanned v d buf cs) x = .ok (stop, y) ∧
        (stop = true ∨ h = none) := by
  refine terminates_followLinks_iff.trans ⟨?_, ?_⟩
  · rintro ⟨cs, h, stop, ⟨buf', y⟩, hpath, hloop, hend⟩
    refine ⟨cs, h, stop, y, hpath, ?_, hend⟩
    rw [← untilStop_scanned, hloop]
    rfl
  · rintro ⟨cs, h, stop, y, hpath, hloop, hend⟩
    rw [← untilStop_scanned] at hloop
    obtain ⟨⟨stop', buf', y'⟩, hloop', heq⟩ := map_eq_ok.mp hloop
    obtain ⟨rfl, rfl⟩ := Prod.mk.inj heq
    exact ⟨cs, h, stop', (buf', y'), hpath, hloop', hend⟩

/-! ### `iterate_children` -/

/-- **The listing of a directory ends**: up to some cluster, the names can be read, and there is the
end marker, or no further cluster. -/
def ListingEnds (v : Volume) (d : Disk) (n : ℕ) : Prop :=
  ∃ cs h, Path (next v d) (link n) cs h ∧ Readable (scanned v d (fun _ => 0) cs) ∧
    ((∃ i ∈ scanned v d (fun _ => 0) cs, i.entry.IsTheEnd) ∨ h = none)

/-- An end marker stops the loop, whatever the callback is. -/
theorem scanEntry_end {f : View → σ → Bool × σ} {i : Item} (hend : i.entry.IsTheEnd)
    (x : Name × ℕ × σ) (r : Bool × Name × ℕ × σ)
    (h : scanEntry v f i.cluster i.offset i.entry x = .ok r) : r.1 = true := by
  have hdel : ¬i.entry.IsDeleted := fun hdel => hdel.not_isTheEnd hend
  rw [scanEntry, if_neg hdel, if_pos hend] at h
  cases h
  rfl

/-- With a callback that never has enough, only an end marker does. -/
theorem isTheEnd_of_scanEntry {f : View → σ → σ} {i : Item} {x : Name × ℕ × σ} {y : Name × ℕ × σ}
    (h : scanEntry v (fun view x => (false, f view x)) i.cluster i.offset i.entry x =
      .ok (true, y)) : i.entry.IsTheEnd := by
  by_contra hend
  obtain ⟨name, index, x⟩ := x
  rw [scanEntry] at h
  by_cases hdel : i.entry.IsDeleted
  · rw [if_pos hdel] at h
    cases h
  rw [if_neg hdel, if_neg hend] at h
  by_cases hlfn : i.entry.IsLfn
  · rw [if_pos hlfn] at h
    obtain ⟨part, -, h⟩ := bind_eq_ok.mp h
    cases h
  · rw [if_neg hlfn] at h
    cases h

theorem terminates_iterateChildren (hdir : inode.isDirectory)
    (hends : ListingEnds v d (dirFirstClusterNumber v inode)) (f : View → σ → Bool × σ) (x : σ) :
    Terminates fun fuel => iterateChildren v inode fuel f x d := by
  obtain ⟨cs, h, hpath, hread, hend⟩ := hends
  obtain ⟨views, hviews⟩ := (exists_viewsFrom_iff _ [] 0).mpr hread
  obtain ⟨stop, name, index, hloop⟩ := untilStop_scanEntry f _ x hviews
  have hterm := (terminates_eachEntry_iff (scanEntry v f) (fun _ => 0) ([], 0, x)).mpr
    ⟨cs, h, stop, _, hpath, hloop, hend.imp_left fun ⟨i, hi, hend⟩ =>
      stop_of_mem hi (scanEntry_end hend) hloop⟩
  simp only [iterateChildren, if_pos hdir]
  exact (terminates_map fun r : Block × Name × ℕ × σ => r.2.2.2).mpr hterm

theorem listingEnds_of_terminates (hdir : inode.isDirectory)
    (hterm : Terminates fun fuel => iterateChildren v inode fuel (fun _ _ => (false, ())) () d) :
    ListingEnds v d (dirFirstClusterNumber v inode) := by
  simp only [iterateChildren, if_pos hdir] at hterm
  have hterm' := (terminates_map fun r : Block × Name × ℕ × Unit => r.2.2.2).mp hterm
  obtain ⟨cs, h, stop, y, hpath, hloop, hend⟩ := (terminates_eachEntry_iff _ _ _).mp hterm'
  refine ⟨cs, h, hpath, ?_, hend.imp_left fun hstop => ?_⟩
  · -- A name that cannot be read would have stopped the loop.
    refine (exists_viewsFrom_iff (v := v) _ [] 0).mp ?_
    rcases hviews : viewsFrom v (scanned v d (fun _ => 0) cs) [] 0 with e | views
    · rw [untilStop_scanEntry_error (fun _ _ => ()) _ () hviews] at hloop
      cases hloop
    · exact ⟨views, rfl⟩
  · rw [hstop] at hloop
    obtain ⟨i, hi, x, hbody⟩ := exists_stop hloop
    exact ⟨i, hi, isTheEnd_of_scanEntry (f := fun _ _ => ()) hbody⟩

/-! ### The search -/

namespace Item

instance (i : Item) : Decidable i.IsIdle := inferInstanceAs (Decidable (_ ∧ _))

/-- **The search stops at an entry**, after these: it is the end marker, or a deleted directory entry,
and with it the gap has got the right number of entries. That one is counted with 32 bits. -/
def StopsSearch (segments : ℕ) (before : List Item) (i : Item) : Prop :=
  i.entry.IsTheEnd ∨ i.entry.IsDeleted ∧ ¬i.entry.IsLfn ∧
    u32 ((before.rtakeWhile fun j => j.IsIdle).length + 1) = segments + 1

end Item

/-- **The search ends**: up to some cluster, it stops at an entry, or there is no further cluster. -/
def SearchEnds (v : Volume) (d : Disk) (n segments : ℕ) : Prop :=
  ∃ cs h, Path (next v d) (link n) cs h ∧
    ((∃ a i b, scanned v d (fun _ => 0) cs = a ++ i :: b ∧ i.StopsSearch segments a) ∨ h = none)

/-- The counter, after an entry at which the search does not stop. -/
theorem searchEntry_counter (segments : ℕ) {before : List Item} (i : Item) {p : Place}
    (hp : p.counter = u32 (before.rtakeWhile fun j => j.IsIdle).length) :
    ((searchEntry segments i.cluster i.offset i.entry p).1 = true ↔ i.StopsSearch segments before) ∧
      (¬i.StopsSearch segments before →
        (searchEntry segments i.cluster i.offset i.entry p).2.counter =
          u32 ((before ++ [i]).rtakeWhile fun j => j.IsIdle).length) := by
  have hcounter : u32 (p.counter + 1) =
      u32 ((before.rtakeWhile fun j => j.IsIdle).length + 1) := by
    rw [hp, u32, u32, u32, Nat.mod_add_mod]
  have hidle (hi : i.IsIdle) : u32 (p.counter + 1) =
      u32 ((before ++ [i]).rtakeWhile fun j => j.IsIdle).length := by
    rw [hcounter, List.rtakeWhile_concat_pos (fun j : Item => decide j.IsIdle) before i (decide_eq_true hi),
      List.length_append, List.length_singleton]
  rw [searchEntry]
  by_cases hend : i.entry.IsTheEnd
  · rw [if_pos hend]
    exact ⟨iff_of_true rfl (.inl hend), fun h => absurd (.inl hend) h⟩
  rw [if_neg hend]
  by_cases hlfn : i.entry.IsLfn
  · have hno : ¬i.StopsSearch segments before := fun h => h.elim hend fun h => h.2.1 hlfn
    rw [if_pos hlfn]
    refine ⟨iff_of_false Bool.false_ne_true hno, fun _ => ?_⟩
    rw [← hidle ⟨hend, .inl hlfn⟩]
    split_ifs with hzero
    · rw [hzero]
      rfl
    · rfl
  rw [if_neg hlfn]
  by_cases hdel : i.entry.IsDeleted
  · rw [if_neg (not_not.mpr hdel), ← hidle ⟨hend, .inr hdel⟩]
    refine ⟨?_, fun _ => rfl⟩
    rw [decide_eq_true_iff, hcounter]
    exact ⟨fun h => .inr ⟨hdel, hlfn, h⟩, fun h => (h.resolve_left hend).2.2⟩
  · have hno : ¬i.StopsSearch segments before := fun h => h.elim hend fun h => hdel h.1
    have hlive : ¬i.IsIdle := fun h => h.2.elim hlfn hdel
    rw [if_pos hdel, List.rtakeWhile_concat_neg _ _ _ (by simpa using hlive)]
    exact ⟨iff_of_false Bool.false_ne_true hno, fun _ => rfl⟩

/-- **Where the search stops.** -/
theorem search_stops_iff (segments : ℕ) (l : List Item) {before : List Item} {p : Place}
    (hp : p.counter = u32 (before.rtakeWhile fun j => j.IsIdle).length) :
    (search segments l p).1 = true ↔
      ∃ a i b, l = a ++ i :: b ∧ i.StopsSearch segments (before ++ a) := by
  induction l generalizing before p with
  | nil =>
    refine iff_of_false Bool.false_ne_true ?_
    rintro ⟨a, i, b, h, -⟩
    exact List.cons_ne_nil _ _ (List.append_eq_nil_iff.mp h.symm).2
  | cons j l ih =>
    obtain ⟨hstop, hnext⟩ := searchEntry_counter segments j hp
    rw [search, scanUntil]
    by_cases hj : j.StopsSearch segments before
    · rw [if_pos (hstop.mpr hj)]
      refine iff_of_true (hstop.mpr hj) ⟨[], j, l, rfl, ?_⟩
      rwa [List.append_nil]
    · rw [if_neg (mt hstop.mp hj)]
      refine (ih (hnext hj)).trans ⟨?_, ?_⟩
      · rintro ⟨a, i, b, rfl, hi⟩
        refine ⟨j :: a, i, b, rfl, ?_⟩
        rwa [List.append_assoc] at hi
      · rintro ⟨_ | ⟨j', a⟩, i, b, h, hi⟩
        · obtain ⟨rfl, rfl⟩ := List.cons.inj h
          rw [List.append_nil] at hi
          exact absurd hi hj
        · obtain ⟨rfl, rfl⟩ := List.cons.inj h
          refine ⟨a, i, b, rfl, ?_⟩
          rwa [List.append_assoc]

theorem terminates_searchSlot_iff : Terminates (fun fuel => searchSlot v d inode segments fuel) ↔
    SearchEnds v d (dirFirstClusterNumber v inode) segments := by
  refine (terminates_eachEntry_iff _ _ _).trans (exists_congr fun cs => exists_congr fun h => ?_)
  have hloop := untilStop_pure (fun i => searchEntry segments i.cluster i.offset i.entry)
    (scanned v d (fun _ => 0) cs) ⟨0, 0, 0⟩
  have hstops : (search segments (scanned v d (fun _ => 0) cs) ⟨0, 0, 0⟩).1 = true ↔ _ :=
    search_stops_iff segments _ (by rw [List.rtakeWhile_nil]; rfl)
  rw [hloop]
  constructor
  · rintro ⟨stop, y, hpath, heq, hend⟩
    refine ⟨hpath, hend.imp_left fun hstop => hstops.mp ?_⟩
    exact (congrArg Prod.fst (Except.ok.inj heq)).trans hstop
  · rintro ⟨hpath, hend⟩
    exact ⟨_, _, hpath, rfl, hend.imp_left hstops.mpr⟩

/-! ### All three -/

/-- The root directory is full, and the link of its cluster leads to the cluster itself. So does that
of cluster 200, which is not in the partition. -/
def selfLinked : Disk :=
  smallDisk (fun i => if i = 2 then 2 else if i = 200 then 200 else eocMax) fun _ _ => 65

theorem eachEntry_selfLinked (body : ℕ → ℕ → Entry → σ → Exec (Bool × σ))
    (hbody : ∀ o x, ∃ y, body 2 o (fun _ => 65) x = .ok (false, y)) (fuel : ℕ) (buf : Block) (x : σ) :
    eachEntry smallVolume selfLinked body fuel 2 buf x = .error .outOfFuel := by
  have hnext : next smallVolume selfLinked 2 = some 2 := by decide +kernel
  refine followLinks_of_self (I := fun _ => True) hnext (fun t _ => ?_) fuel trivial
  have hread : clusterRead smallVolume 2 t.1 selfLinked = fun _ => 65 :=
    clusterRead_eq valid_smallVolume (by decide)
  obtain ⟨y, hy⟩ := exists_untilStop_false (l := slots) (fun o _ x => hbody o x) t.2
  exact ⟨(fun _ => 65, y), by rw [hread]; exact congrArg (· >>= _) hy, trivial⟩

end Fat32

end Valkyrie
