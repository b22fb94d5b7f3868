import Valkyrie.Lib.Strncpy
import Valkyrie.Base.Loop

/-!
# Archives

`CPIOArchive::for_each` of `fs/CPIOArchive.cc`, which calls a function with each file of an archive in
the `newc` format. A record of such an archive is a header of 110 characters, the name and a zero, the
content, and zeros behind the name and the content up to the next multiple of 4. The reader does not
compute where these zeros end. It skips the zeros behind the name, and it looks for the beginning of a
header behind the content.

The second search is right in every archive: the six characters that it looks for are not found
earlier, since they have no overlap with themselves and no zeros (`Valkyrie.CPIO.RecordAt.not_magic`).
The first one also skips the zeros at the beginning of the content. And a file ends the archive if its
name only begins with the name of the last record. An archive without such contents and names is
decoded as it was encoded, and no other one is (`Valkyrie.CPIO.decodes_iff`).
-/

namespace Valkyrie

namespace CPIO

open Exec CLib

/-! ### The code -/

/-- `CPIO_MAGIC`, `"070701"`. -/
def magic : List UInt8 := [48, 55, 48, 55, 48, 49]

/-- `CPIO_TRAILER`, `"TRAILER!!!"`. -/
def trailer : List UInt8 := [84, 82, 65, 73, 76, 69, 82, 33, 33, 33]

/-- The size of a `Header`: the magic number, and 13 fields of 8 characters. -/
def headerSize : ℕ := 110

/-- The offset of `c_filesize`, the seventh field. -/
def filesizeOffset : ℕ := 54

/-- The offset of `c_namesize`, the twelfth field. -/
def namesizeOffset : ℕ := 94

/-- `CPIOArchive::Entry`. -/
structure Entry where
  /-- Where the header is. -/
  header : ℕ
  /-- Where the name is, if there is one. -/
  pathname : Option ℕ
  /-- Where the content is, if there is one. -/
  content : Option ℕ
  /-- The length of the name, with the zero behind it. -/
  pathnameLen : ℕ
  /-- The length of the content. -/
  contentLen : ℕ
deriving DecidableEq

/-- A size in a header: its characters are copied to a buffer of zeros, and converted. -/
def sizeField (m : Mem) (fuel a : ℕ) : Exec ℕ := do
  return ofInt (← atoi (replayBytes (strncpyStores m a 0 8) fun _ => 0) 16 fuel 0)

/-- The constructor of `Entry`. -/
def entryAt (m : Mem) (fuel ptr : ℕ) : Exec Entry := do
  let pathnameLen ← sizeField m fuel (ptr + namesizeOffset)
  let contentLen ← sizeField m fuel (ptr + filesizeOffset)
  let pathname := if pathnameLen ≠ 0 then some (ptr + headerSize) else none
  if contentLen ≠ 0 then
    let content ← countWhile (fun x => m x = 0) fuel (ptr + headerSize + pathnameLen)
    return ⟨ptr, pathname, some content, pathnameLen, contentLen⟩
  else return ⟨ptr, pathname, none, pathnameLen, contentLen⟩

/-- `Entry::is_valid`. -/
def Entry.isValid (m : Mem) (e : Entry) : Exec Bool :=
  match e.pathname with
  | none => .error .wild
  | some a => return strncmp m (literal trailer) a 0 trailer.length ≠ 0

/-- The loop that advances to the next header. -/
def nextHeader (m : Mem) (fuel ptr : ℕ) : Exec ℕ :=
  countWhile (fun x => strncmp m (literal magic) x 0 magic.length ≠ 0) fuel ptr

/-- The loop of `for_each`, and the entries that the function is called with. -/
def forEachLoop (m : Mem) (bound : ℕ) : ℕ → ℕ → Exec (List Entry)
  | 0, _ => .error .outOfFuel
  | fuel + 1, ptr => do
    let dentry ← entryAt m bound ptr
    if ← dentry.isValid m then
      let ptr ← nextHeader m bound (ptr + headerSize + dentry.pathnameLen + dentry.contentLen)
      return dentry :: (← forEachLoop m bound fuel ptr)
    else return []

/-- `CPIOArchive::for_each`. -/
def forEach (m : Mem) (fuel ptr : ℕ) : Exec (List Entry) := forEachLoop m fuel fuel ptr

/-! ### The format -/

/-- The zeros behind so many bytes, up to the next multiple of 4. -/
def pad (n : ℕ) : ℕ := (4 - n % 4) % 4

/-- **Eight hexadecimal digits** with this value. -/
def SizeAt (m : Mem) (a n : ℕ) : Prop := ∃ digits : List UInt8, digits.length = 8 ∧
  m.HasBytes a digits ∧ (∀ c ∈ digits, (digit? 16 c).isSome) ∧ valueFrom 16 0 digits = n

/-- Where the content begins, behind a header, a name and its zeros. -/
def contentAt (ptr : ℕ) (name : List UInt8) : ℕ :=
  ptr + headerSize + (name.length + 1) + pad (headerSize + (name.length + 1))

/-- Where the next record begins. -/
def nextAt (ptr : ℕ) (name content : List UInt8) : ℕ :=
  contentAt ptr name + content.length + pad content.length

/-- **A record** of an archive. The fields of its header that are not sizes may hold anything. -/
structure RecordAt (m : Mem) (ptr : ℕ) (name content : List UInt8) : Prop where
  /-- It begins with the magic number. -/
  hasMagic : m.HasBytes ptr magic
  /-- The size of the name, with a zero. -/
  namesize : SizeAt m (ptr + namesizeOffset) (name.length + 1)
  /-- The size of the content. -/
  filesize : SizeAt m (ptr + filesizeOffset) content.length
  /-- The name. -/
  hasName : m.CString (ptr + headerSize) name
  /-- The zeros behind the name. -/
  namePad : m.HasBytes (ptr + headerSize + (name.length + 1))
    (List.replicate (pad (headerSize + (name.length + 1))) 0)
  /-- The content. -/
  hasContent : m.HasBytes (contentAt ptr name) content
  /-- The zeros behind the content. -/
  contentPad : m.HasBytes (contentAt ptr name + content.length)
    (List.replicate (pad content.length) 0)

/-- **An archive** of some files, and the record that ends it. -/
def ArchiveAt (m : Mem) : ℕ → List (List UInt8 × List UInt8) → Prop
  | ptr, [] => RecordAt m ptr trailer []
  | ptr, p :: ps => RecordAt m ptr p.1 p.2 ∧ ArchiveAt m (nextAt ptr p.1 p.2) ps

/-- **An entry describes a file**: its name, the length of its content, and its bytes. -/
def Describes (m : Mem) (p : List UInt8 × List UInt8) (e : Entry) : Prop :=
  (∃ a, e.pathname = some a ∧ m.CString a p.1) ∧ e.contentLen = p.2.length ∧
    (p.2 ≠ [] → ∃ c, e.content = some c ∧ m.HasBytes c p.2)

/-- **An archive is decoded** to these files. -/
def Decodes (m : Mem) (ptr : ℕ) (ps : List (List UInt8 × List UInt8)) : Prop :=
  ∃ bound es, (∀ fuel, bound < fuel → forEach m fuel ptr = .ok es) ∧ List.Forall₂ (Describes m) ps es

/-- The sizes that a header can give to the reader. -/
def Sized (p : List UInt8 × List UInt8) : Prop := p.1.length + 1 < 2 ^ 31 ∧ p.2.length < 2 ^ 31

/-- **A file that is read as it is**: its name does not begin like the last record's, and its content
does not begin with a zero. -/
def Readable (p : List UInt8 × List UInt8) : Prop := ¬trailer <+: p.1 ∧ p.2.head? ≠ some 0

variable {m : Mem} {ptr a n fuel bound : ℕ} {name content : List UInt8}

/-! ### A size -/

theorem number_of_digits {digits : List UInt8} (h : ∀ c ∈ digits, (digit? 16 c).isSome) :
    number 16 digits = valueFrom 16 0 digits := by
  rcases digits with _ | ⟨c, digits⟩
  · rfl
  have hc := h c List.mem_cons_self
  have hne : ∀ b : UInt8, digit? 16 b = none → c ≠ b := by
    rintro b hb rfl
    rw [hb] at hc
    cases hc
  rw [number, List.dropWhile_cons_of_neg (by simpa using hne 32 (by decide))]
  dsimp only
  rw [if_neg (hne 45 (by decide)), if_neg (hne 43 (by decide))]

theorem sizeField_eq (h : SizeAt m a n) (hn : n < 2 ^ 31) (hfuel : 8 < fuel) :
    sizeField m fuel a = .ok n := by
  obtain ⟨digits, hlen, hbytes, hdigits, rfl⟩ := h
  have hne : 0 ∉ digits := fun h0 => absurd (hdigits 0 h0) (by decide)
  have hbuf : (replayBytes (strncpyStores m a 0 digits.length) fun _ => 0).CString 0 digits :=
    cString_strncpyStores _ hbytes hne
  rw [hlen] at hbuf
  rw [sizeField, atoi_eq (Or.inr rfl) hbuf (by omega) (by omega), number_of_digits hdigits]
  have hclamp : clamp (valueFrom 16 0 digits) = valueFrom 16 0 digits := by
    rw [clamp, intMin, intMax]
    omega
  rw [hclamp, ok_bind, ofInt, sizeMod]
  exact congrArg _ (by omega)

/-! ### A record -/

theorem pad_le (n : ℕ) : pad n ≤ 3 := by
  rw [pad]
  omega

namespace RecordAt

variable (h : RecordAt m ptr name content)

include h

/-- **The entry of a record.** The content is looked for behind the name. -/
theorem entryAt_eq (hsized : Sized (name, content)) (hfuel : 8 < fuel) :
    entryAt m fuel ptr = if content.length ≠ 0 then
        countWhile (fun x => m x = 0) fuel (ptr + headerSize + (name.length + 1)) >>= fun c =>
          pure ⟨ptr, some (ptr + headerSize), some c, name.length + 1, content.length⟩
      else pure ⟨ptr, some (ptr + headerSize), none, name.length + 1, content.length⟩ := by
  rw [entryAt, sizeField_eq h.namesize hsized.1 hfuel, ok_bind,
    sizeField_eq h.filesize hsized.2 hfuel, ok_bind]
  rfl

/-- An entry that is read has the name of the record, and it is not for a content that begins with a
zero. -/
theorem exists_of_entryAt (hsized : Sized (name, content)) (hfuel : 8 < fuel) {e : Entry}
    (he : entryAt m fuel ptr = .ok e) : e.pathname = some (ptr + headerSize) ∧
      e.pathnameLen = name.length + 1 ∧ e.contentLen = content.length ∧
        (Describes m (name, content) e → content.head? ≠ some 0) := by
  rw [h.entryAt_eq hsized hfuel] at he
  split_ifs at he with hlen
  · obtain ⟨c, hc, he⟩ := bind_eq_ok.mp he
    cases he
    refine ⟨rfl, rfl, rfl, ?_⟩
    rintro ⟨-, -, hbytes⟩ hhead
    obtain ⟨c', hc', hbytes⟩ := hbytes fun hnil => hlen (congrArg List.length hnil)
    cases hc'
    -- The search ends at a byte that is not zero, so the content would begin with that byte.
    have h0 : m c = content.getD 0 0 := hbytes 0 (Nat.pos_of_ne_zero hlen)
    rw [List.getD_eq_getElem?_getD, ← List.head?_eq_getElem?, hhead] at h0
    exact not_of_countWhile hc (by simpa using h0)
  · cases he
    refine ⟨rfl, rfl, rfl, fun _ hhead => hlen fun h0 => ?_⟩
    rw [List.length_eq_zero_iff.mp h0] at hhead
    cases hhead

/-- **The entry of a content that does not begin with a zero.** -/
theorem exists_entryAt (hsized : Sized (name, content)) (hhead : content.head? ≠ some 0) :
    ∃ e, Describes m (name, content) e ∧ ∀ fuel, 8 < fuel → entryAt m fuel ptr = .ok e := by
  have hname : ∃ a, some (ptr + headerSize) = some a ∧ m.CString a name := ⟨_, rfl, h.hasName⟩
  rcases hcontent : content with _ | ⟨c, rest⟩
  · refine ⟨⟨ptr, some (ptr + headerSize), none, name.length + 1, 0⟩,
      ⟨hname, rfl, fun hne => absurd rfl hne⟩, fun fuel hfuel => ?_⟩
    rw [h.entryAt_eq hsized hfuel, hcontent]
    rfl
  · refine ⟨⟨ptr, some (ptr + headerSize), some (contentAt ptr name), name.length + 1, _⟩,
      ⟨hname, rfl, fun _ => ⟨_, rfl, hcontent ▸ h.hasContent⟩⟩, fun fuel hfuel => ?_⟩
    have hc : m (contentAt ptr name) = c := by
      have h0 := h.hasContent
      rw [hcontent, Mem.hasBytes_cons] at h0
      exact h0.1
    have hne : c ≠ 0 := fun h0 => hhead (by rw [hcontent, h0]; rfl)
    have hpad := pad_le (headerSize + (name.length + 1))
    have hskip : countWhile (fun x => m x = 0) fuel (ptr + headerSize + (name.length + 1)) =
        .ok (contentAt ptr name) :=
      countWhile_eq
        (fun k hk => decide_eq_true (h.namePad.eq_of_replicate ⟨by omega, by omega⟩))
        (fun hz => hne (hc.symm.trans (of_decide_eq_true hz))) (by omega)
    rw [h.entryAt_eq hsized hfuel, hskip, hcontent]
    rfl

theorem isValid_eq {e : Entry} (he : e.pathname = some (ptr + headerSize)) :
    e.isValid m = .ok (decide ¬trailer <+: name) := by
  rw [Entry.isValid, he]
  dsimp only
  rw [decide_eq_decide.mpr (not_congr ((strncmp_literal_eq_zero_iff (by decide)).trans
    (h.hasName.hasBytes_iff (by decide))))]
  rfl

/-- **No header is found too early.** The bytes that are searched are the last of the content and
zeros, at most six in all. A zero is not in the magic number, and with no zero behind the content a
match would overlap with the next header. -/
theorem not_magic (hnext : m.HasBytes (nextAt ptr name content) magic) {x : ℕ}
    (hle : ptr + headerSize + (name.length + 1) + content.length ≤ x)
    (hlt : x < nextAt ptr name content) : ¬m.HasBytes x magic := by
  intro hx
  have hpad := pad_le (headerSize + (name.length + 1))
  have hpad' := pad_le content.length
  have hend : nextAt ptr name content = contentAt ptr name + content.length + pad content.length := rfl
  have hbegin : contentAt ptr name =
    ptr + headerSize + (name.length + 1) + pad (headerSize + (name.length + 1)) := rfl
  have hnz : ∀ k < 6, magic.getD k 0 ≠ 0 := by decide
  by_cases hp : pad content.length = 0
  · by_cases hc : x < contentAt ptr name
    · have h0 : m x = 0 := h.namePad.eq_of_replicate ⟨by omega, by omega⟩
      exact hnz 0 (by decide) ((hx 0 (by decide)).symm.trans h0)
    · obtain ⟨j, hj⟩ : ∃ j, nextAt ptr name content = x + j := ⟨_, (Nat.add_sub_cancel' hlt.le).symm⟩
      have hoverlap : ∀ k < 6 - j, magic.getD k 0 = magic.getD (j + k) 0 := by
        intro k hk
        have hk' : k < magic.length := lt_of_lt_of_le hk (Nat.sub_le 6 j)
        have hjk : j + k < magic.length := by
          change j + k < 6
          omega
        rw [← hnext k hk', ← hx (j + k) hjk, hj, Nat.add_assoc]
      have hno : ∀ j < 4, 0 < j → ¬∀ k < 6 - j, magic.getD k 0 = magic.getD (j + k) 0 := by
        decide
      exact hno j (by omega) (by omega) hoverlap
  · have hlast : m (nextAt ptr name content - 1) = 0 :=
      h.contentPad.eq_of_replicate ⟨by omega, by omega⟩
    have hk : nextAt ptr name content - 1 - x < 6 := by omega
    have hin := hx _ (show nextAt ptr name content - 1 - x < magic.length from hk)
    rw [show x + (nextAt ptr name content - 1 - x) = nextAt ptr name content - 1 by omega, hlast] at hin
    exact hnz _ hk hin.symm

/-- **The next header is found.** -/
theorem nextHeader_eq (hnext : m.HasBytes (nextAt ptr name content) magic) (hfuel : 8 < fuel) :
    nextHeader m fuel (ptr + headerSize + (name.length + 1) + content.length) =
      .ok (nextAt ptr name content) := by
  have hend : nextAt ptr name content = ptr + headerSize + (name.length + 1) + content.length +
      (pad (headerSize + (name.length + 1)) + pad content.length) := by
    rw [nextAt, contentAt]
    omega
  have hpad := pad_le (headerSize + (name.length + 1))
  have hpad' := pad_le content.length
  rw [hend]
  refine countWhile_eq (fun k hk => ?_) ?_ (by omega)
  · refine decide_eq_true fun h0 => ?_
    exact h.not_magic hnext (by omega) (by omega) ((strncmp_literal_eq_zero_iff (by decide)).mp h0)
  · rw [← hend]
    exact fun hne => of_decide_eq_true hne ((strncmp_literal_eq_zero_iff (by decide)).mpr hnext)

end RecordAt

/-! ### An archive -/

variable {ps : List (List UInt8 × List UInt8)}

theorem ArchiveAt.hasMagic (h : ArchiveAt m ptr ps) : m.HasBytes ptr magic := by
  cases ps with
  | nil => exact RecordAt.hasMagic h
  | cons p ps => exact h.1.hasMagic

/-- **A round at a file** that does not end the archive. -/
theorem RecordAt.forEachLoop_eq (h : RecordAt m ptr name content)
    (hnext : m.HasBytes (nextAt ptr name content) magic) (hsized : Sized (name, content))
    (hbound : 8 < bound) (hname : ¬trailer <+: name) :
    forEachLoop m bound (fuel + 1) ptr = entryAt m bound ptr >>= fun e =>
      (e :: ·) <$> forEachLoop m bound fuel (nextAt ptr name content) := by
  rw [forEachLoop]
  rcases he : entryAt m bound ptr with stop | e
  · rfl
  obtain ⟨hpath, hlen, hclen, -⟩ := h.exists_of_entryAt hsized hbound he
  rw [ok_bind, ok_bind, h.isValid_eq hpath, ok_bind, if_pos (decide_eq_true hname), hlen, hclen,
    h.nextHeader_eq hnext hbound, ok_bind]
  rfl

/-- **A round at the end**, or at a file that is taken for it. -/
theorem RecordAt.forEachLoop_of_trailer (h : RecordAt m ptr name content)
    (hsized : Sized (name, content)) (hbound : 8 < bound) (hname : trailer <+: name) :
    forEachLoop m bound (fuel + 1) ptr = entryAt m bound ptr >>= fun _ => pure [] := by
  rw [forEachLoop]
  rcases he : entryAt m bound ptr with stop | e
  · rfl
  obtain ⟨hpath, -⟩ := h.exists_of_entryAt hsized hbound he
  rw [ok_bind, ok_bind, h.isValid_eq hpath, ok_bind,
    if_neg (by rw [decide_eq_true_iff]; exact not_not_intro hname)]

/-- An archive of files that can be read, from its beginning to its end. -/
theorem ArchiveAt.exists_forEachLoop (h : ArchiveAt m ptr ps) (hsized : ∀ p ∈ ps, Sized p)
    (hread : ∀ p ∈ ps, Readable p) : ∃ es, List.Forall₂ (Describes m) ps es ∧
      ∀ bound fuel, 8 < bound → ps.length < fuel → forEachLoop m bound fuel ptr = .ok es := by
  induction ps generalizing ptr with
  | nil =>
    have htrailer : RecordAt m ptr trailer [] := h
    have hsize : Sized (trailer, []) := ⟨by decide, by decide⟩
    obtain ⟨e, -, he⟩ := htrailer.exists_entryAt hsize (by decide)
    refine ⟨[], List.Forall₂.nil, fun bound fuel hbound hfuel => ?_⟩
    obtain ⟨fuel, rfl⟩ := exists_succ_of_lt hfuel
    rw [htrailer.forEachLoop_of_trailer hsize hbound (List.prefix_refl _), he bound hbound]
    rfl
  | cons p ps ih =>
    obtain ⟨hrecord, hrest⟩ := h
    have hsize := hsized p List.mem_cons_self
    obtain ⟨hname, hhead⟩ := hread p List.mem_cons_self
    obtain ⟨e, hdescribes, he⟩ := hrecord.exists_entryAt hsize hhead
    obtain ⟨es, hes, hloop⟩ := ih hrest (fun q hq => hsized q (List.mem_cons_of_mem p hq))
      fun q hq => hread q (List.mem_cons_of_mem p hq)
    refine ⟨e :: es, hes.cons hdescribes, fun bound fuel hbound hfuel => ?_⟩
    obtain ⟨fuel, rfl⟩ := exists_succ_of_lt hfuel
    rw [hrecord.forEachLoop_eq hrest.hasMagic hsize hbound hname, he bound hbound, ok_bind,
      hloop bound fuel hbound (Nat.lt_of_succ_lt_succ hfuel)]
    rfl

/-- An archive that is decoded has only files that can be read. -/
theorem ArchiveAt.readable (h : ArchiveAt m ptr ps) (hsized : ∀ p ∈ ps, Sized p)
    (hbound : 8 < bound) {es : List Entry} (hloop : forEachLoop m bound fuel ptr = .ok es)
    (hes : List.Forall₂ (Describes m) ps es) : ∀ p ∈ ps, Readable p := by
  induction ps generalizing ptr fuel es with
  | nil => exact fun p hp => absurd hp List.not_mem_nil
  | cons p ps ih =>
    obtain ⟨hrecord, hrest⟩ := h
    have hsize := hsized p List.mem_cons_self
    rcases fuel with _ | fuel
    · cases hloop
    have hname : ¬trailer <+: p.1 := by
      intro hname
      rw [hrecord.forEachLoop_of_trailer hsize hbound hname] at hloop
      obtain ⟨e, -, hnil⟩ := bind_eq_ok.mp hloop
      cases hnil
      cases hes
    rw [hrecord.forEachLoop_eq hrest.hasMagic hsize hbound hname] at hloop
    obtain ⟨e, he, hloop⟩ := bind_eq_ok.mp hloop
    obtain ⟨es', hrestLoop, rfl⟩ := map_eq_ok.mp hloop
    obtain ⟨hdescribes, hes⟩ := List.forall₂_cons.mp hes
    have hhead := (hrecord.exists_of_entryAt hsize hbound he).2.2.2 hdescribes
    have htail := ih hrest (fun q hq => hsized q (List.mem_cons_of_mem p hq)) hrestLoop hes
    exact List.forall_mem_cons.mpr ⟨⟨hname, hhead⟩, htail⟩

/-- **Which archives are decoded as they were encoded**: those of files whose names do not begin with
`TRAILER!!!` and whose contents do not begin with a zero. -/
theorem decodes_iff (h : ArchiveAt m ptr ps) (hsized : ∀ p ∈ ps, Sized p) :
    Decodes m ptr ps ↔ ∀ p ∈ ps, Readable p := by
  constructor
  · rintro ⟨bound, es, hloop, hes⟩
    have hfuel := hloop (bound + 9) (by omega)
    exact h.readable hsized (by omega) hfuel hes
  · intro hread
    obtain ⟨es, hes, hloop⟩ := h.exists_forEachLoop hsized hread
    exact ⟨ps.length + 8, es, fun fuel hfuel => hloop fuel fuel (by omega) (by omega), hes⟩

/-! ### An encoder -/

/-- A hexadecimal digit. -/
def hexDigit (d : ℕ) : UInt8 := UInt8.ofNat (if d < 10 then 48 + d else 55 + d)

/-- The last hexadecimal digits of a number. -/
def hexDigits : ℕ → ℕ → List UInt8
  | 0, _ => []
  | k + 1, n => hexDigits k (n / 16) ++ [hexDigit (n % 16)]

/-- A header with these two sizes, and zeros in its other fields. -/
def encodeHeader (filesize namesize : ℕ) : List UInt8 :=
  magic ++ (List.replicate 48 48 ++ (hexDigits 8 filesize ++ (List.replicate 32 48 ++
    (hexDigits 8 namesize ++ List.replicate 8 48))))

/-- A record. -/
def encodeRecord (name content : List UInt8) : List UInt8 :=
  encodeHeader content.length (name.length + 1) ++ ((name ++ [0]) ++
    (List.replicate (pad (headerSize + (name.length + 1))) 0 ++
      (content ++ List.replicate (pad content.length) 0)))

/-- **An archive** of some files. -/
def encode : List (List UInt8 × List UInt8) → List UInt8
  | [] => encodeRecord trailer []
  | p :: ps => encodeRecord p.1 p.2 ++ encode ps

theorem digit?_hexDigit (n : ℕ) : digit? 16 (hexDigit (n % 16)) = some (n % 16) := by
  have h : ∀ d < 16, digit? 16 (hexDigit d) = some d := by decide
  exact h (n % 16) (Nat.mod_lt n (by decide))

theorem length_hexDigits (k n : ℕ) : (hexDigits k n).length = k := by
  induction k generalizing n with
  | zero => rfl
  | succ k ih => rw [hexDigits, List.length_append, ih, List.length_singleton]

theorem isSome_of_mem_hexDigits {k n : ℕ} {c : UInt8} (h : c ∈ hexDigits k n) :
    (digit? 16 c).isSome := by
  induction k generalizing n with
  | zero => cases h
  | succ k ih =>
    rcases List.mem_append.mp h with h | h
    · exact ih h
    · rw [List.mem_singleton.mp h, digit?_hexDigit]
      rfl

theorem valueFrom_hexDigits_append (k n x : ℕ) (s : List UInt8) :
    valueFrom 16 x (hexDigits k n ++ s) = valueFrom 16 (16 ^ k * x + n % 16 ^ k) s := by
  induction k generalizing n s with
  | zero => rw [Nat.pow_zero, Nat.mod_one, Nat.one_mul]; rfl
  | succ k ih =>
    rw [hexDigits, List.append_assoc, ih, List.singleton_append, valueFrom, digit?_hexDigit]
    dsimp only
    congr 1
    rw [Nat.mul_add, ← Nat.mul_assoc, ← Nat.pow_succ', Nat.add_assoc, Nat.pow_succ',
      Nat.mod_mul, Nat.add_comm (n % 16)]

/-- The digits of a number that has no more of them. -/
theorem sizeAt_hexDigits (h : m.HasBytes a (hexDigits 8 n)) (hn : n < 16 ^ 8) : SizeAt m a n := by
  refine ⟨hexDigits 8 n, length_hexDigits 8 n, h, fun c => isSome_of_mem_hexDigits, ?_⟩
  rw [← List.append_nil (hexDigits 8 n), valueFrom_hexDigits_append, Nat.mul_zero, Nat.zero_add,
    Nat.mod_eq_of_lt hn]
  rfl

theorem length_encodeHeader (filesize namesize : ℕ) :
    (encodeHeader filesize namesize).length = headerSize := by
  simp only [encodeHeader, List.length_append, List.length_replicate, length_hexDigits]
  rfl

theorem recordAt_encodeRecord (h : m.HasBytes ptr (encodeRecord name content)) (hname : 0 ∉ name)
    (hsized : Sized (name, content)) : RecordAt m ptr name content := by
  obtain ⟨hheader, h⟩ := Mem.hasBytes_append.mp h
  rw [length_encodeHeader] at h
  obtain ⟨hstring, h⟩ := Mem.hasBytes_append.mp h
  rw [List.length_append, List.length_singleton] at h
  obtain ⟨hnamePad, h⟩ := Mem.hasBytes_append.mp h
  rw [List.length_replicate] at h
  obtain ⟨hcontent, hcontentPad⟩ := Mem.hasBytes_append.mp h
  obtain ⟨hmagic, hheader⟩ := Mem.hasBytes_append.mp hheader
  obtain ⟨-, hheader⟩ := Mem.hasBytes_append.mp hheader
  obtain ⟨hfilesize, hheader⟩ := Mem.hasBytes_append.mp hheader
  rw [length_hexDigits] at hheader
  obtain ⟨-, hheader⟩ := Mem.hasBytes_append.mp hheader
  obtain ⟨hnamesize, -⟩ := Mem.hasBytes_append.mp hheader
  have hn : name.length + 1 < 16 ^ 8 := hsized.1.trans (by decide)
  have hc : content.length < 16 ^ 8 := hsized.2.trans (by decide)
  exact ⟨hmagic, sizeAt_hexDigits hnamesize hn, sizeAt_hexDigits hfilesize hc,
    Mem.CString.of_hasBytes hstring hname, hnamePad, hcontent, hcontentPad⟩

theorem length_encodeRecord (ptr : ℕ) (name content : List UInt8) :
    ptr + (encodeRecord name content).length = nextAt ptr name content := by
  simp only [encodeRecord, List.length_append, List.length_replicate, length_encodeHeader, nextAt,
    contentAt, List.length_singleton]
  omega

/-- **What the encoder writes is an archive.** -/
theorem archiveAt_encode (h : m.HasBytes ptr (encode ps)) (hnames : ∀ p ∈ ps, 0 ∉ p.1)
    (hsized : ∀ p ∈ ps, Sized p) : ArchiveAt m ptr ps := by
  induction ps generalizing ptr with
  | nil => exact recordAt_encodeRecord h (by decide) ⟨by decide, by decide⟩
  | cons p ps ih =>
    obtain ⟨hrecord, hrest⟩ := Mem.hasBytes_append.mp h
    rw [length_encodeRecord] at hrest
    refine ⟨recordAt_encodeRecord hrecord (hnames p List.mem_cons_self)
      (hsized p List.mem_cons_self), ih hrest ?_ ?_⟩
    · exact fun q hq => hnames q (List.mem_cons_of_mem p hq)
    · exact fun q hq => hsized q (List.mem_cons_of_mem p hq)

/-- The files `a`, with the content `b`, and `c`, which is empty. -/
theorem decodes_two_files :
    Decodes (Mem.put (fun _ => 0) 0 (encode [([97], [98]), ([99], [])])) 0
      [([97], [98]), ([99], [])] := by
  have hsized : ∀ p ∈ [(([97], [98]) : List UInt8 × List UInt8), ([99], [])], Sized p := by
    intro p hp
    have hlen : p.1.length = 1 ∧ p.2.length ≤ 1 := by
      rcases List.mem_pair.mp hp with rfl | rfl
      · exact ⟨rfl, le_rfl⟩
      · exact ⟨rfl, Nat.zero_le 1⟩
    exact ⟨by omega, by omega⟩
  refine (decodes_iff (archiveAt_encode (Mem.hasBytes_put _ _ _) (by decide) hsized) hsized).mpr ?_
  intro p hp
  rcases List.mem_pair.mp hp with rfl | rfl
  · exact ⟨by decide, by decide⟩
  · exact ⟨by decide, by decide⟩

/-- **A file whose content begins with a zero**: `a`, with the content `0 b`, which is at 112. The
entry has the length of the content, and the address of its second byte. -/
theorem not_decodes_zero_first :
    forEach (Mem.put (fun _ => 0) 0 (encode [([97], [0, 98])])) 10 0 =
        .ok [⟨0, some 110, some 113, 2, 2⟩] ∧
      contentAt 0 [97] = 112 ∧
      ¬Decodes (Mem.put (fun _ => 0) 0 (encode [([97], [0, 98])])) 0 [([97], [0, 98])] := by
  have hsized : ∀ p ∈ [(([97], [0, 98]) : List UInt8 × List UInt8)], Sized p := by
    intro p hp
    rw [List.mem_singleton.mp hp]
    exact ⟨by decide, by decide⟩
  have harchive := archiveAt_encode (Mem.hasBytes_put (fun _ => 0) 0 (encode [([97], [0, 98])]))
    (by decide) hsized
  refine ⟨by decide +kernel, rfl, ?_⟩
  rintro ⟨bound, es, hloop, hes⟩
  have hlt : 8 < bound + 9 := by omega
  have hread := harchive.readable hsized hlt (hloop (bound + 9) (by omega)) hes
  exact (hread _ List.mem_cons_self).2 rfl

end CPIO

end Valkyrie
