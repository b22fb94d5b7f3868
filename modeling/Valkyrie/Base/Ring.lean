import Mathlib.Data.List.Chain
import Mathlib.Data.List.Nodup

/-!
# Circular lists in memory

A doubly linked list without an end: two functions `next` and `prev` give every cell the links it
holds, and `Valkyrie.Ring next prev head l` says that following `next` from the cell `head` visits the
cells of `l`, in order, and returns to `head`, while following `prev` visits them in reverse.

A cell is linked in between two neighbours (`Valkyrie.Ring.link`), or a cell is unlinked and its
neighbours are joined (`Valkyrie.Ring.unlink`). Both leave the links of all other cells alone, and for
both it does not matter whether a neighbour is `head`, or both are.
-/

namespace Valkyrie

variable {α : Type}

/-- Two cells that point at each other. -/
def Adjacent (next prev : α → Option α) (u v : α) : Prop := next u = some v ∧ prev v = some u

/-- **A circular list**, with the cells behind `head`. -/
structure Ring (next prev : α → Option α) (head : α) (l : List α) : Prop where
  /-- No cell is there twice. -/
  nodup : (head :: l).Nodup
  /-- Each cell and the one behind it point at each other, and so do the last one and `head`. -/
  chain : List.IsChain (Adjacent next prev) (head :: (l ++ [head]))

section Lists

variable {R : α → α → Prop} {head a b : α} {l xs ys : List α}

theorem getLast?_cons_eq (head : α) (xs : List α) :
    (head :: xs).getLast? = some (xs.getLastD head) := by
  rw [List.getLast?_cons, List.getLastD_eq_getLast?]

theorem head?_concat_eq (head : α) (ys : List α) :
    (ys ++ [head]).head? = some (ys.headD head) := by
  cases ys with
  | nil => rfl
  | cons y ys => rfl

theorem getLastD_mem (head : α) (xs ys : List α) : xs.getLastD head ∈ head :: (xs ++ ys) := by
  rw [← List.cons_append]
  exact List.mem_append_left ys (List.mem_of_getLast? (getLast?_cons_eq head xs))

theorem headD_mem (head : α) (xs ys : List α) : ys.headD head ∈ head :: (xs ++ ys) := by
  cases ys with
  | nil => exact List.mem_cons_self
  | cons y ys => exact List.mem_cons_of_mem head (List.mem_append_right xs List.mem_cons_self)

/-- A closed list is cut in two. -/
theorem isChain_cut : List.IsChain R (head :: (xs ++ ys ++ [head])) ↔
    List.IsChain R (head :: xs) ∧ R (xs.getLastD head) (ys.headD head) ∧
      List.IsChain R (ys ++ [head]) := by
  rw [List.append_assoc, ← List.cons_append, List.isChain_append, getLast?_cons_eq, head?_concat_eq]
  simp only [Option.mem_def, Option.some.injEq, forall_eq']
  exact ⟨fun h => ⟨h.1, h.2.2, h.2.1⟩, fun h => ⟨h.1, h.2.2, h.2.1⟩⟩

/-- What is in front of the last element is not the last one. -/
theorem ne_of_mem_dropLast (hl : l.Nodup) (ha : a ∈ l.dropLast) (hb : l.getLast? = some b) :
    a ≠ b := by
  rintro rfl
  obtain ⟨l', rfl⟩ := List.getLast?_eq_some_iff.mp hb
  rw [List.dropLast_concat] at ha
  exact List.disjoint_of_nodup_append hl ha List.mem_cons_self

theorem ne_of_mem_tail (hl : l.Nodup) (ha : a ∈ l.tail) (hb : l.head? = some b) : a ≠ b := by
  rintro rfl
  cases l with
  | nil => cases hb
  | cons c l =>
    cases hb
    exact (List.nodup_cons.mp hl).1 ha

/-- **Links that are left alone** keep a part of the list together. -/
theorem IsChain.of_eq {next prev next' prev' : α → Option α} (h : List.IsChain (Adjacent next prev) l)
    (hnext : ∀ a ∈ l.dropLast, next' a = next a) (hprev : ∀ b ∈ l.tail, prev' b = prev b) :
    List.IsChain (Adjacent next' prev') l := by
  induction l with
  | nil => exact List.isChain_nil
  | cons a l ih =>
    cases l with
    | nil => exact List.isChain_singleton a
    | cons b l =>
      obtain ⟨hab, h⟩ := List.isChain_cons_cons.mp h
      refine List.isChain_cons_cons.mpr ⟨⟨?_, ?_⟩, ih h ?_ ?_⟩
      · exact (hnext a List.mem_cons_self).trans hab.1
      · exact (hprev b List.mem_cons_self).trans hab.2
      · exact fun c hc => hnext c (List.mem_cons_of_mem a hc)
      · exact fun c hc => hprev c (List.mem_cons_of_mem b hc)

end Lists

namespace Ring

variable {next prev next' prev' : α → Option α} {head e : α} {l xs ys : List α}

theorem chain_cut (h : Ring next prev head (xs ++ ys)) :
    List.IsChain (Adjacent next prev) (head :: xs) ∧
      Adjacent next prev (xs.getLastD head) (ys.headD head) ∧
      List.IsChain (Adjacent next prev) (ys ++ [head]) := isChain_cut.mp h.chain

/-- **The two parts of a list stay together** when only the links change that join them. -/
theorem parts_of_eq (hnodup : (head :: (xs ++ ys)).Nodup)
    (hxs : List.IsChain (Adjacent next prev) (head :: xs))
    (hys : List.IsChain (Adjacent next prev) (ys ++ [head]))
    (hnext : ∀ a ∈ head :: (xs ++ ys), a ≠ xs.getLastD head → next' a = next a)
    (hprev : ∀ b ∈ head :: (xs ++ ys), b ≠ ys.headD head → prev' b = prev b) :
    List.IsChain (Adjacent next' prev') (head :: xs) ∧
      List.IsChain (Adjacent next' prev') (ys ++ [head]) := by
  have hfront : (head :: xs).Nodup := by
    rw [← List.cons_append] at hnodup
    exact hnodup.of_append_left
  have hback : (ys ++ [head]).Nodup := by
    have hperm : (ys ++ [head]).Perm (head :: ys) := List.perm_append_singleton head ys
    refine hperm.nodup_iff.mpr (hnodup.sublist ?_)
    exact (List.sublist_append_right xs ys).cons_cons head
  have hdisjoint : ∀ a ∈ xs, a ∉ ys ++ [head] := by
    intro a ha hmem
    obtain ⟨hhead, hrest⟩ := List.nodup_cons.mp hnodup
    rcases List.mem_append.mp hmem with hys | hEq
    · exact List.disjoint_of_nodup_append hrest ha hys
    · exact hhead (List.mem_append_left ys (List.mem_singleton.mp hEq ▸ ha))
  have hdisjoint' : ∀ a ∈ ys, a ∉ head :: xs := by
    intro a ha hmem
    rcases List.mem_cons.mp hmem with rfl | hxs
    · exact (List.nodup_cons.mp hnodup).1 (List.mem_append_right xs ha)
    · exact hdisjoint a hxs (List.mem_append_left [head] ha)
  constructor
  · refine IsChain.of_eq hxs (fun a ha => ?_) fun b hb => ?_
    · have ha' : a ∈ head :: xs := (List.dropLast_sublist _).mem ha
      refine hnext a ?_ (ne_of_mem_dropLast hfront ha (getLast?_cons_eq head xs))
      rw [← List.cons_append]
      exact List.mem_append_left ys ha'
    · refine hprev b (List.mem_cons_of_mem head (List.mem_append_left ys hb)) ?_
      rintro rfl
      exact hdisjoint _ hb (List.mem_of_head? (head?_concat_eq head ys))
  · refine IsChain.of_eq hys (fun a ha => ?_) fun b hb => ?_
    · rw [List.dropLast_concat] at ha
      refine hnext a (List.mem_cons_of_mem head (List.mem_append_right xs ha)) ?_
      rintro rfl
      exact hdisjoint' _ ha (List.mem_of_getLast? (getLast?_cons_eq head xs))
    · refine hprev b ?_ (ne_of_mem_tail hback hb (head?_concat_eq head ys))
      rcases List.mem_append.mp (List.mem_of_mem_tail hb) with hys | hEq
      · exact List.mem_cons_of_mem head (List.mem_append_right xs hys)
      · exact List.mem_singleton.mp hEq ▸ List.mem_cons_self

/-- **A cell is linked in**, between two neighbours. -/
theorem link (h : Ring next prev head (xs ++ ys)) (he : e ∉ head :: (xs ++ ys))
    (hnext : ∀ a ∈ head :: (xs ++ ys), a ≠ xs.getLastD head → next' a = next a)
    (hprev : ∀ b ∈ head :: (xs ++ ys), b ≠ ys.headD head → prev' b = prev b)
    (hfront : Adjacent next' prev' (xs.getLastD head) e)
    (hback : Adjacent next' prev' e (ys.headD head)) : Ring next' prev' head (xs ++ e :: ys) := by
  obtain ⟨hxs, -, hys⟩ := h.chain_cut
  obtain ⟨hxs, hys⟩ := parts_of_eq h.nodup hxs hys hnext hprev
  refine ⟨?_, isChain_cut.mpr ⟨hxs, hfront, ?_⟩⟩
  · have hperm : (head :: (xs ++ e :: ys)).Perm (e :: head :: (xs ++ ys)) :=
      (List.perm_middle.cons head).trans (List.Perm.swap e head _)
    exact hperm.nodup_iff.mpr (List.nodup_cons.mpr ⟨he, h.nodup⟩)
  · refine List.isChain_cons.mpr ⟨fun v hv => ?_, hys⟩
    obtain rfl : ys.headD head = v := Option.some.inj ((head?_concat_eq head ys).symm.trans hv)
    exact hback

/-- **A cell is unlinked**, and its neighbours are joined. -/
theorem unlink (h : Ring next prev head (xs ++ e :: ys))
    (hnext : ∀ a ∈ head :: (xs ++ ys), a ≠ xs.getLastD head → next' a = next a)
    (hprev : ∀ b ∈ head :: (xs ++ ys), b ≠ ys.headD head → prev' b = prev b)
    (hjoin : Adjacent next' prev' (xs.getLastD head) (ys.headD head)) :
    Ring next' prev' head (xs ++ ys) := by
  obtain ⟨hxs, -, hys⟩ := h.chain_cut
  have hnodup : (head :: (xs ++ ys)).Nodup := by
    refine h.nodup.sublist ?_
    exact ((List.sublist_cons_self e ys).append_left xs).cons_cons head
  obtain ⟨hxs, hys⟩ := parts_of_eq hnodup hxs hys.tail hnext hprev
  exact ⟨hnodup, isChain_cut.mpr ⟨hxs, hjoin, hys⟩⟩

end Ring

end Valkyrie
