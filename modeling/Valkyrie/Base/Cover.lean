import Mathlib.Data.List.Perm.Basic
import Mathlib.Order.Nat
import Mathlib.Tactic.Tauto

/-!
# Lists that cover a region exactly once

A family of pieces, each of which covers some cells, *covers a region exactly*
when every cell of the region lies in exactly one piece of the list and no piece
reaches outside. `Valkyrie.Covering R l` says so. It speaks of the pieces as a
list and not as a set, so that a piece that stands in the list twice is seen, and
it does not depend on their order.

An allocator changes such a list in three ways: it cuts a piece in two or joins
two pieces (`Valkyrie.Covering.cut_iff`), it takes a new piece from outside the region
(`Valkyrie.Covering.cons`), or it gives one up (`Valkyrie.Covering.uncons`).
-/

namespace Valkyrie

section Cover

variable {α : Type} {Covers : α → ℕ → Prop} [∀ a f, Decidable (Covers a f)]

variable (Covers) in
/-- How many pieces of the list cover the cell. -/
def coverCount (l : List α) (f : ℕ) : ℕ := l.countP fun a => Covers a f

variable (Covers) in
/-- **The pieces cover the region exactly**: none reaches outside, and each cell
of the region lies in exactly one. -/
structure Covering (R : ℕ → Prop) (l : List α) : Prop where
  inside : ∀ a ∈ l, ∀ f, Covers a f → R f
  once : ∀ f, R f → coverCount Covers l f = 1

/-- Pieces that cover no cell twice are pairwise disjoint. -/
theorem pairwise_of_coverCount_le_one {l : List α} (h : ∀ f, coverCount Covers l f ≤ 1) :
    l.Pairwise fun a b => ∀ f, ¬(Covers a f ∧ Covers b f) := by
  induction l with
  | nil => exact List.Pairwise.nil
  | cons a l ih =>
    refine List.pairwise_cons.mpr ⟨fun b hb f hf => ?_, ih fun f => ?_⟩
    · have hone := h f
      rw [coverCount, List.countP_cons_of_pos (by simpa using hf.1)] at hone
      have hpos : 0 < l.countP fun a => Covers a f :=
        List.countP_pos_iff.mpr ⟨b, hb, by simpa using hf.2⟩
      omega
    · exact (List.Sublist.countP_le (List.sublist_cons_self a l)).trans (h f)

/-- Cutting a piece in two disjoint parts does not change the count. -/
theorem coverCount_cut {a b c : α} {f : ℕ} (l : List α)
    (hiff : Covers a f ↔ Covers b f ∨ Covers c f) (hnot : ¬(Covers b f ∧ Covers c f)) :
    coverCount Covers (b :: c :: l) f = coverCount Covers (a :: l) f := by
  simp only [coverCount, List.countP_cons, decide_eq_true_eq, hiff]
  split_ifs <;> first | omega | tauto

namespace Covering

variable {R : ℕ → Prop} {l l' : List α} {a b c : α} {f : ℕ}

/-- Whether a list covers a region does not depend on the order of its pieces. -/
theorem perm (h : Covering Covers R l) (hp : l.Perm l') : Covering Covers R l' where
  inside a ha := h.inside a (hp.mem_iff.mpr ha)
  once f hf := (hp.countP_eq _).symm.trans (h.once f hf)

/-- A region is known by its cells. -/
theorem congr {R' : ℕ → Prop} (h : Covering Covers R l) (hR : ∀ f, R' f ↔ R f) :
    Covering Covers R' l where
  inside a ha f hf := (hR f).mpr (h.inside a ha f hf)
  once f hf := h.once f ((hR f).mp hf)

/-- **No other piece covers a cell of a piece of the list.** -/
theorem not_covers (h : Covering Covers R (a :: l)) (hb : b ∈ l) (hf : Covers a f) :
    ¬Covers b f := by
  intro hbf
  have hone := h.once f (h.inside a (by simp) f hf)
  rw [coverCount, List.countP_cons_of_pos (by simpa using hf)] at hone
  have hpos : 0 < l.countP fun a => Covers a f :=
    List.countP_pos_iff.mpr ⟨b, hb, by simpa using hbf⟩
  omega

/-- A piece is determined by any cell it covers. -/
theorem eq_of_covers [DecidableEq α] (h : Covering Covers R l) (ha : a ∈ l) (hb : b ∈ l)
    (haf : Covers a f) (hbf : Covers b f) : a = b := by
  by_contra hne
  have h' := h.perm (List.perm_cons_erase ha)
  exact h'.not_covers ((List.mem_erase_of_ne (Ne.symm hne)).mpr hb) haf hbf

/-- Every cell of the region lies in a piece. -/
theorem exists_covers (h : Covering Covers R l) (hf : R f) : ∃ a ∈ l, Covers a f := by
  have hpos : 0 < l.countP fun a => Covers a f := by
    have := h.once f hf
    rw [coverCount] at this
    omega
  obtain ⟨a, ha, haf⟩ := List.countP_pos_iff.mp hpos
  exact ⟨a, ha, by simpa using haf⟩

/-- Outside the region no cell is covered, and inside each is covered once. -/
theorem coverCount_le_one (h : Covering Covers R l) (f : ℕ) : coverCount Covers l f ≤ 1 := by
  by_cases hf : R f
  · exact (h.once f hf).le
  · have hzero : coverCount Covers l f = 0 := by
      rw [coverCount, List.countP_eq_zero]
      intro a ha
      rw [decide_eq_true_eq]
      exact fun haf => hf (h.inside a ha f haf)
    omega

/-- **Cutting a piece in two**, and joining two pieces. -/
theorem cut_iff (hiff : ∀ f, Covers a f ↔ Covers b f ∨ Covers c f)
    (hnot : ∀ f, ¬(Covers b f ∧ Covers c f)) :
    Covering Covers R (b :: c :: l) ↔ Covering Covers R (a :: l) := by
  constructor
  · intro h
    refine ⟨fun x hx f hf => ?_, fun f hf => ?_⟩
    · rcases List.mem_cons.mp hx with rfl | hx
      · rcases (hiff f).mp hf with hb | hc
        · exact h.inside b (by simp) f hb
        · exact h.inside c (by simp) f hc
      · exact h.inside x (by simp [hx]) f hf
    · rw [← coverCount_cut l (hiff f) (hnot f)]
      exact h.once f hf
  · intro h
    refine ⟨fun x hx f hf => ?_, fun f hf => ?_⟩
    · rcases List.mem_cons.mp hx with rfl | hx
      · exact h.inside a (by simp) f ((hiff f).mpr (Or.inl hf))
      · rcases List.mem_cons.mp hx with rfl | hx
        · exact h.inside a (by simp) f ((hiff f).mpr (Or.inr hf))
        · exact h.inside x (by simp [hx]) f hf
    · rw [coverCount_cut l (hiff f) (hnot f)]
      exact h.once f hf

/-- **Taking a piece from outside the region** adds its cells to the region. -/
theorem cons (h : Covering Covers R l) (hout : ∀ f, Covers a f → ¬R f) :
    Covering Covers (fun f => R f ∨ Covers a f) (a :: l) where
  inside x hx f hf := by
    rcases List.mem_cons.mp hx with rfl | hx
    · exact Or.inr hf
    · exact Or.inl (h.inside x hx f hf)
  once f hf := by
    by_cases haf : Covers a f
    · have hzero : l.countP (fun a => Covers a f) = 0 := by
        rw [List.countP_eq_zero]
        intro x hx
        rw [decide_eq_true_eq]
        exact fun hxf => hout f haf (h.inside x hx f hxf)
      rw [coverCount, List.countP_cons_of_pos (by simpa using haf), hzero]
    · rw [coverCount, List.countP_cons_of_neg (by simpa using haf)]
      exact h.once f (hf.resolve_right haf)

/-- **Giving up a piece** takes its cells out of the region. -/
theorem uncons (h : Covering Covers R (a :: l)) :
    Covering Covers (fun f => R f ∧ ¬Covers a f) l where
  inside x hx f hf := ⟨h.inside x (by simp [hx]) f hf, fun haf => h.not_covers hx haf hf⟩
  once f hf := by
    have hone := h.once f hf.1
    rwa [coverCount, List.countP_cons_of_neg (by simpa using hf.2)] at hone

end Covering

end Cover

/-! ### Spans of cells -/

/-- A run of cells. -/
structure Span where
  /-- The first cell. -/
  start : ℕ
  /-- The number of cells. -/
  size : ℕ
deriving DecidableEq

namespace Span

/-- The first cell behind the span. -/
def stop (c : Span) : ℕ := c.start + c.size

/-- The cell is one of the span's. -/
def Covers (c : Span) (f : ℕ) : Prop := c.start ≤ f ∧ f < c.start + c.size

instance (c : Span) (f : ℕ) : Decidable (c.Covers f) := by
  unfold Covers
  infer_instance

theorem covers_start {c : Span} (h : 0 < c.size) : c.Covers c.start := ⟨le_rfl, by omega⟩

/-- Pieces of a covering that are not empty have different starts. -/
theorem start_inj {R : ℕ → Prop} {l : List Span} (h : Covering Covers R l)
    (hpos : ∀ c ∈ l, 0 < c.size) {c d : Span} (hc : c ∈ l) (hd : d ∈ l)
    (hs : c.start = d.start) : c = d :=
  h.eq_of_covers hc hd (covers_start (hpos c hc)) (hs ▸ covers_start (hpos d hd))

end Span

end Valkyrie
