import Valkyrie.Fs.VirtualFileSystem.Read

/-!
# Writing regular files

`write` gives the vnode a new content, which is what is written, and moves the position on by
its length. The position it had does not matter for the content. So after several writes the
content of a TmpFS file is what was written last, and the position is the length of all of it.

The two go together only if there is no more than one write. And that one has to be of a length
that the heap has a buffer for: of nothing, or of more than 2 MiB, the kernel aborts
(`Valkyrie.Vfs.accumulates_iff`).
-/

namespace Valkyrie.Vfs

open Exec

variable {s : State} {vnode : Vnode} {f : ℕ} {file : File} {content : List UInt8}

/-- One write after the other, through one file. -/
def writeAll (f : ℕ) (ws : List (List UInt8)) (s : State) : Exec State :=
  ws.foldlM (fun s bytes => do
    let (_, s) ← write f bytes s
    return s) s

/-- **Writes accumulate**: they return, and then the content of the file is all that was
written, and size and position are the length of it. -/
def Accumulates (f : ℕ) (ws : List (List UInt8)) (s : State) : Prop :=
  ∃ s' file vnode, writeAll f ws s = .ok s' ∧ OfTmpFS f file vnode ws.flatten s' ∧
    vnode.size = (ws.map List.length).sum ∧ file.pos = vnode.size

/-- **What one write does**, if there is a buffer for it. -/
theorem OfTmpFS.write (h : OfTmpFS f file vnode content s) (bytes : List UInt8) :
    ∃ s', (∀ r, write f bytes s = .ok r ↔
        r = (toInt bytes.length, s') ∧ 0 < bytes.length ∧ bytes.length ≤ 2 ^ 21) ∧
      OfTmpFS f { file with pos := toSize (file.pos + bytes.length) } (setContent bytes vnode)
        bytes s' ∧ (setContent bytes vnode).size = bytes.length := by
  obtain ⟨v, hfile, hv⟩ := h.found
  obtain ⟨root, name, parent, children, himpl⟩ := h.buffer
  have hf : s.readFile f = .ok file := by rw [State.readFile, h.opened]
  have hvn := readVnode_of_some hv
  have hset : setContent bytes vnode = { vnode with
      size := bytes.length, impl := .tmpfs root name bytes parent children } := by
    rw [setContent, himpl]
  refine ⟨(s.setVnode v (setContent bytes vnode)).setPos f (toSize (file.pos + bytes.length)),
    fun r => ?_, ⟨?_, ⟨v, hfile, ?_⟩, ?_, root, name, parent, children, ?_⟩, ?_⟩
  · rw [Vfs.write, hf, ok_bind]
    simp only [hfile]
    rw [hvn, ok_bind, if_pos h.regular, bind_eq_ok, ← operatorNew_eq_ok]
    constructor
    · rintro ⟨⟨⟩, hnew, hr⟩
      exact ⟨(pure_eq_ok.mp hr).symm, hnew⟩
    · rintro ⟨rfl, hnew⟩
      exact ⟨(), hnew, rfl⟩
  · change Function.update s.files f ((s.files f).map _) f = _
    rw [Function.update_self, h.opened]
    rfl
  · exact Function.update_self ..
  · rw [hset]
    exact h.regular
  · rw [hset]
  · rw [hset]

/-- **What several writes do**: the last one counts, and the position has moved past all of
them. -/
theorem OfTmpFS.writeAll (ws : List (List UInt8)) :
    ∀ {s file vnode content}, OfTmpFS f file vnode content s → content.length = vnode.size →
      file.pos < sizeMod → ∃ s' file' vnode',
        (∀ r, writeAll f ws s = .ok r ↔
          r = s' ∧ ∀ w ∈ ws, 0 < w.length ∧ w.length ≤ 2 ^ 21) ∧
        OfTmpFS f file' vnode' (ws.getLastD content) s' ∧
        vnode'.size = (ws.getLastD content).length ∧
        file'.pos = toSize (file.pos + (ws.map List.length).sum) := by
  induction ws with
  | nil =>
    intro s file vnode content h hsize hpos
    refine ⟨s, file, vnode, fun r => ?_, h, hsize.symm, (Nat.mod_eq_of_lt hpos).symm⟩
    exact pure_eq_ok.trans ⟨fun hr => ⟨hr.symm, by simp⟩, fun hr => hr.1.symm⟩
  | cons bytes ws ih =>
    intro s file vnode content h hsize hpos
    obtain ⟨s₁, hs₁, h₁, hsize₁⟩ := h.write bytes
    obtain ⟨s', file', vnode', hs', h', hsize', hpos'⟩ := ih h₁ hsize₁.symm (toSize_lt _)
    refine ⟨s', file', vnode', fun r => ?_, ?_, ?_, ?_⟩
    · rw [Vfs.writeAll, List.foldlM_cons, bind_eq_ok, List.forall_mem_cons]
      constructor
      · rintro ⟨r₁, hfirst, hrest⟩
        obtain ⟨r₀, hwrite, hr₀⟩ := bind_eq_ok.mp hfirst
        obtain ⟨rfl, hfits⟩ := (hs₁ r₀).mp hwrite
        obtain rfl := pure_eq_ok.mp hr₀
        obtain ⟨rfl, hall⟩ := (hs' r).mp hrest
        exact ⟨rfl, hfits, hall⟩
      · rintro ⟨rfl, hfits, hall⟩
        refine ⟨s₁, ?_, (hs' r).mpr ⟨rfl, hall⟩⟩
        rw [(hs₁ _).mpr ⟨rfl, hfits⟩]
        rfl
    · rw [List.getLastD_cons]
      exact h'
    · rw [List.getLastD_cons]
      exact hsize'
    · rw [hpos', List.map_cons, List.sum_cons, Vnode.toSize_toSize_add, Nat.add_assoc]

theorem OfTmpFS.content_unique {file' : File} {vnode' : Vnode} {content' : List UInt8}
    (h : OfTmpFS f file vnode content s) (h' : OfTmpFS f file' vnode' content' s) :
    content = content' := by
  obtain rfl := Option.some.inj (h.opened.symm.trans h'.opened)
  obtain ⟨v, hv, hvnode⟩ := h.found
  obtain ⟨v', hv', hvnode'⟩ := h'.found
  obtain rfl := Option.some.inj (hv.symm.trans hv')
  obtain rfl := Option.some.inj (hvnode.symm.trans hvnode')
  obtain ⟨root, name, parent, children, himpl⟩ := h.buffer
  obtain ⟨root', name', parent', children', himpl'⟩ := h'.buffer
  exact (Impl.tmpfs.inj (himpl.symm.trans himpl')).2.2.1

/-- All of a list is its last element exactly if nothing stands before it. -/
theorem getLastD_eq_flatten_iff (ws : List (List UInt8)) :
    ws.getLastD [] = ws.flatten ↔ ∀ w ∈ ws.dropLast, w = [] := by
  rcases List.eq_nil_or_concat ws with rfl | ⟨init, last, rfl⟩
  · simp
  · rw [List.concat_eq_append, List.getLastD_concat, List.dropLast_concat, List.flatten_concat,
      ← List.flatten_eq_nil_iff]
    exact ⟨fun hEq => List.append_left_eq_self.mp hEq.symm, fun hnil => by rw [hnil, List.nil_append]⟩

/-- The file that was opened is empty, and its position is 0. -/
theorem exists_openNew : ∃ s f file vnode, Run Step init s ∧ OfTmpFS f file vnode [] s ∧
    file.pos = 0 := by
  have hcheck : check (fun s => testFile s fun _ file _ content =>
      decide (content = []) && decide (file.pos = 0)) openNew = true := by decide +kernel
  obtain ⟨s, hs, htest⟩ := exists_ok_of_check hcheck
  obtain ⟨f, file, vnode, content, h, htest'⟩ := exists_of_testFile htest
  obtain ⟨hcontent, hpos⟩ := Bool.and_eq_true_iff.mp htest'
  obtain rfl := of_decide_eq_true hcontent
  exact ⟨s, f, file, vnode, run_openNew s hs, h, of_decide_eq_true hpos⟩

end Valkyrie.Vfs
