import Mathlib.Data.List.DropRight
import Valkyrie.Fs.Fat32.Create

/-!
# Short filenames

`generate_short_filename` is written after the algorithm for basis names: upper case, characters that
are not allowed replaced by underscores, no spaces, no leading periods, then eight characters in front
of the first period and three behind the last one, and a numeric tail if something was lost. The code
counts the period among the characters that are not allowed. So there are no periods left when it
looks for them, and a name with one always gets the tail. Of the primary name it copies the last
character only, and that one to the last place.

So there are two short names in all: blanks with `~1`
(`Valkyrie.Fat32.shortFilename_of_not_isPlain`), and blanks with one character
(`Valkyrie.Fat32.shortFilename_of_isPlain`). The second one is not terminated, and as a string it goes
on with what lies on the stack. What is left of the algorithm is in
`Valkyrie.Fat32.followsAlgorithm_iff`.
-/

namespace Valkyrie.Fat32

variable {name behind s t : List UInt8}

/-! ### The string -/

/-- `generate_short_filename`: the string. The bytes from the last one of the array on, up to the
first null byte, are those behind; it is set only for a name with a numeric tail. -/
def shortFilename (behind : List UInt8) (name : Name) : Exec (List UInt8) :=
  if name = [] then .error (.panic "fat32: generate_short_filename() takes an empty string\n")
  else
    let upper := name.map toUpper
    let lossy := upper.any fun c => !isValidShortFilenameChar c
    let oem := upper.map fun c => if isValidShortFilenameChar c then c else 95
    let long := (removeChar 32 oem).dropWhile (· = 46)
    if !lossy && canFitWithin83ShortFilename long then return basisName long ++ behind
    else return ((basisName long).set 6 126).set 7 49

/-! ### The algorithm -/

/-- A character after the conversion. A period stays. -/
def oemChar (c : UInt8) : UInt8 := if c = 46 ∨ isValidShortFilenameChar c then c else 95

/-- **The name after the first four steps.** -/
def strippedName (name : Name) : List UInt8 :=
  (((name.map toUpper).map oemChar).filter (· ≠ 32)).dropWhile (· = 46)

/-- Filled up with blanks. -/
def pad (k : ℕ) (s : List UInt8) : List UInt8 := s ++ List.replicate (k - s.length) 32

/-- The primary name: the first eight characters in front of the first period. -/
def primaryName (t : List UInt8) : List UInt8 := (t.takeWhile (· ≠ 46)).take 8

/-- The extension: the first three characters behind the last period. -/
def extension (t : List UInt8) : List UInt8 :=
  if 46 ∈ t then (t.rtakeWhile (· ≠ 46)).take 3 else []

/-- The name fits: eight characters at most, or so many, a period and three at most. -/
def Fits83 (t : List UInt8) : Prop :=
  ∃ p e, p.length ≤ 8 ∧ e.length ≤ 3 ∧ 46 ∉ p ∧ 46 ∉ e ∧ (t = p ∨ t = p ++ 46 :: e)

/-- **A numeric tail is needed**: a character other than a period was replaced, or the name does not
fit. -/
def NeedsTail (name : Name) : Prop :=
  (∃ c ∈ name, toUpper c ≠ 46 ∧ isValidShortFilenameChar (toUpper c) = false) ∨
    ¬Fits83 (strippedName name)

/-- **The short name is that of the algorithm.** -/
def FollowsAlgorithm (behind : List UInt8) (name : Name) : Prop :=
  ∃ s, shortFilename behind name = .ok s ∧ s.length = 11 ∧
    (s.drop 8).take 3 = pad 3 (extension (strippedName name)) ∧
    (¬NeedsTail name → s.take 8 = pad 8 (primaryName (strippedName name)))

/-! ### What the code returns -/

/-- The code does not append a tail: every character is valid, and no more than twelve are not
blanks. -/
def IsPlain (name : Name) : Prop :=
  (∀ c ∈ name, isValidShortFilenameChar (toUpper c)) ∧ (strippedName name).length ≤ 12

theorem isValidShortFilenameChar_period : isValidShortFilenameChar 46 = false := by decide

theorem ne_period_of_isValid {c : UInt8} (h : isValidShortFilenameChar c) : c ≠ 46 := by
  rintro rfl
  rw [isValidShortFilenameChar_period] at h
  cases h

/-- There are no periods left. -/
theorem basisName_eq (h : 46 ∉ t) : basisName t =
    List.replicate 7 32 ++ t.getLastD 32 :: List.replicate 3 32 := by
  have htake : t.takeWhile (· ≠ 46) = t :=
    List.takeWhile_eq_self_iff.mpr fun c hc => decide_eq_true fun heq => h (heq ▸ hc)
  rw [basisName, if_neg h, htake]
  rfl

theorem strippedName_eq_of_valid (h : ∀ c ∈ name, isValidShortFilenameChar (toUpper c)) :
    strippedName name = (name.map toUpper).filter (· ≠ 32) ∧ 46 ∉ strippedName name := by
  have hperiod : ∀ c ∈ name.map toUpper, c ≠ 46 := by
    intro c hc
    obtain ⟨c', hc', rfl⟩ := List.mem_map.mp hc
    exact ne_period_of_isValid (h c' hc')
  have hoem : (name.map toUpper).map oemChar = name.map toUpper := by
    rw [List.map_map]
    exact List.map_congr_left fun c hc => if_pos (.inr (h c hc))
  have heq : strippedName name = (name.map toUpper).filter (· ≠ 32) := by
    rw [strippedName, hoem]
    refine List.dropWhile_eq_self_iff.mpr fun hpos hfirst => ?_
    exact hperiod _ (List.mem_of_mem_filter (List.getElem_mem hpos)) (of_decide_eq_true hfirst)
  refine ⟨heq, fun hmem => ?_⟩
  rw [heq] at hmem
  exact hperiod 46 (List.mem_of_mem_filter hmem) rfl

/-- `long_filename` in the end. -/
def longFilename (name : Name) : List UInt8 :=
  (removeChar 32 ((name.map toUpper).map fun c =>
    if isValidShortFilenameChar c then c else 95)).dropWhile (· = 46)

theorem period_not_mem_longFilename (name : Name) : 46 ∉ longFilename name := by
  intro hmem
  have hoem := List.mem_of_mem_filter (List.mem_of_mem_dropLast
    ((List.dropWhile_sublist _).mem hmem))
  obtain ⟨c, -, hc⟩ := List.mem_map.mp hoem
  split_ifs at hc with hvalid
  · exact ne_period_of_isValid hvalid hc
  · exact absurd hc (by decide)

theorem longFilename_of_valid (h : ∀ c ∈ name, isValidShortFilenameChar (toUpper c)) :
    longFilename name = (strippedName name).dropLast := by
  have hoem : ((name.map toUpper).map fun c => if isValidShortFilenameChar c then c else 95) =
      name.map toUpper := by
    rw [List.map_map]
    exact List.map_congr_left fun c hc => if_pos (h c hc)
  obtain ⟨heq, hperiod⟩ := strippedName_eq_of_valid h
  rw [longFilename, hoem, removeChar, ← heq]
  refine List.dropWhile_eq_self_iff.mpr fun hpos hfirst => hperiod ?_
  rw [← of_decide_eq_true hfirst]
  exact List.mem_of_mem_dropLast (List.getElem_mem hpos)

theorem canFit_longFilename (h : ∀ c ∈ name, isValidShortFilenameChar (toUpper c)) :
    canFitWithin83ShortFilename (longFilename name) = true ↔ (strippedName name).length ≤ 12 := by
  have hperiod := period_not_mem_longFilename name
  rw [canFitWithin83ShortFilename, decide_eq_true_iff, longFilename_of_valid h, List.length_dropLast]
  rw [longFilename_of_valid h] at hperiod
  exact ⟨fun h => by omega, fun h => ⟨by omega, .inl hperiod, .inl hperiod⟩⟩

/-- **Without a tail**, the name is one character and blanks, and what lies behind the array. -/
theorem shortFilename_of_isPlain (hname : name ≠ []) (h : IsPlain name) :
    shortFilename behind name = .ok (List.replicate 7 32 ++
      (longFilename name).getLastD 32 :: List.replicate 3 32 ++ behind) := by
  have hlossy : ((name.map toUpper).any fun c => !isValidShortFilenameChar c) = false := by
    rw [List.any_eq_false]
    intro c hc
    obtain ⟨c', hc', rfl⟩ := List.mem_map.mp hc
    rw [h.1 c' hc']
    decide
  have hfits := (canFit_longFilename h.1).mpr h.2
  rw [longFilename] at hfits
  rw [shortFilename, if_neg hname]
  dsimp only
  rw [hlossy, hfits, if_pos (by decide), ← basisName_eq (period_not_mem_longFilename name)]
  rfl

/-- **With a tail**, nothing of the name is left. -/
theorem shortFilename_of_not_isPlain (hname : name ≠ []) (h : ¬IsPlain name) :
    shortFilename behind name =
      .ok (List.replicate 6 32 ++ 126 :: 49 :: List.replicate 3 32) := by
  have htail : (!((name.map toUpper).any fun c => !isValidShortFilenameChar c) &&
      canFitWithin83ShortFilename (longFilename name)) = false := by
    by_cases hvalid : ∀ c ∈ name, isValidShortFilenameChar (toUpper c)
    · have hfits : ¬canFitWithin83ShortFilename (longFilename name) = true :=
        fun hfits => h ⟨hvalid, (canFit_longFilename hvalid).mp hfits⟩
      rw [Bool.eq_false_of_not_eq_true hfits, Bool.and_false]
    · push Not at hvalid
      obtain ⟨c, hc, hinvalid⟩ := hvalid
      have hlossy : ((name.map toUpper).any fun c => !isValidShortFilenameChar c) = true :=
        List.any_eq_true.mpr ⟨toUpper c, List.mem_map_of_mem hc, by
          rw [Bool.eq_false_of_not_eq_true hinvalid]
          rfl⟩
      rw [hlossy, Bool.not_true, Bool.false_and]
  rw [longFilename] at htail
  rw [shortFilename, if_neg hname]
  dsimp only
  rw [htail, if_neg Bool.false_ne_true]
  have hbasis := basisName_eq (period_not_mem_longFilename name)
  rw [longFilename] at hbasis
  rw [hbasis]
  rfl

/-! ### What is left of the algorithm -/

theorem blank_not_mem_strippedName (name : Name) : 32 ∉ strippedName name := fun hmem =>
  absurd (List.of_mem_filter ((List.dropWhile_sublist _).mem hmem)) (by decide)

theorem replicate_ne_pad {k l : ℕ} {x : List UInt8} (hl : 0 < l) (hs : s ≠ []) (hblank : 32 ∉ s) :
    List.replicate l 32 ++ x ≠ pad k s := by
  obtain ⟨l, rfl⟩ := Nat.exists_eq_add_one_of_ne_zero hl.ne'
  obtain ⟨c, s, rfl⟩ := List.exists_cons_of_ne_nil hs
  intro heq
  exact hblank ((List.cons.inj heq).1 ▸ List.mem_cons_self)

/-- The extension is empty if there is no period, or nothing behind the last one. -/
theorem extension_eq_nil_iff : extension t = [] ↔ 46 ∉ t ∨ t.getLast? = some 46 := by
  by_cases hmem : 46 ∈ t
  · have hne : t ≠ [] := List.ne_nil_of_mem hmem
    rw [extension, if_pos hmem, List.take_eq_nil_iff, or_iff_right (by decide),
      List.rtakeWhile_eq_nil_iff, or_iff_right (not_not.mpr hmem), List.getLast?_eq_some_getLast hne]
    simp [hne]
  · rw [extension, if_neg hmem]
    exact iff_of_true rfl (.inl hmem)

theorem mem_of_mem_extension {c : UInt8} (h : c ∈ extension t) : c ∈ t := by
  rw [extension] at h
  split_ifs at h
  · exact (List.rtakeWhile_suffix _ _).mem (List.mem_of_mem_take h)
  · cases h

theorem pad_extension_iff (hblank : 32 ∉ t) :
    List.replicate 3 32 = pad 3 (extension t) ↔ 46 ∉ t ∨ t.getLast? = some 46 := by
  rw [← extension_eq_nil_iff]
  constructor
  · intro heq
    by_contra hne
    rw [← List.append_nil (List.replicate 3 32)] at heq
    exact replicate_ne_pad (by decide) hne (fun h => hblank (mem_of_mem_extension h)) heq
  · intro hnil
    rw [hnil]
    rfl

/-- There is a primary name, unless the name is empty. -/
theorem primaryName_eq_nil_iff (name : Name) :
    primaryName (strippedName name) = [] ↔ strippedName name = [] := by
  refine ⟨fun h => ?_, fun h => by rw [h]; rfl⟩
  rw [primaryName, List.take_eq_nil_iff, or_iff_right (by decide), List.takeWhile_eq_nil_iff] at h
  by_contra hne
  have hpos := List.length_pos_of_ne_nil hne
  -- The periods in front have been stripped.
  refine List.dropWhile_get_zero_not _ _ hpos (decide_eq_true ?_)
  have hfirst := h hpos
  rwa [decide_eq_true_iff, not_not] at hfirst

theorem strippedName_eq_nil (h : ∀ c ∈ name, c = 32) : strippedName name = [] := by
  have hblank : ((name.map toUpper).map oemChar).filter (· ≠ 32) = [] := by
    rw [List.filter_eq_nil_iff]
    intro c hc
    rw [List.map_map] at hc
    obtain ⟨c', hc', rfl⟩ := List.mem_map.mp hc
    rw [h c' hc']
    decide
  rw [strippedName, hblank]
  rfl

theorem isPlain_of_blank (h : ∀ c ∈ name, c = 32) : IsPlain name := by
  refine ⟨fun c hc => ?_, ?_⟩
  · rw [h c hc]
    decide
  · rw [strippedName_eq_nil h]
    decide

theorem eq_blank_of_toUpper : ∀ c : UInt8, toUpper c = 32 → c = 32 := forall_byte (by decide +kernel)

theorem forall_blank_of_isPlain (h : IsPlain name) (hnil : strippedName name = []) :
    ∀ c ∈ name, c = 32 := by
  rw [(strippedName_eq_of_valid h.1).1, List.filter_eq_nil_iff] at hnil
  intro c hc
  have hupper := hnil (toUpper c) (List.mem_map_of_mem hc)
  rw [decide_eq_true_iff, not_not] at hupper
  exact eq_blank_of_toUpper c hupper

/-- **When the short name is that of the algorithm**: there is no extension; a tail is needed, or the
name has nothing but blanks; and where the code appends no tail, a null byte happens to lie behind
the eleven. -/
theorem followsAlgorithm_iff (hname : name ≠ []) : FollowsAlgorithm behind name ↔
    (46 ∉ strippedName name ∨ (strippedName name).getLast? = some 46) ∧
    (NeedsTail name ∨ ∀ c ∈ name, c = 32) ∧ (IsPlain name → behind = []) := by
  have hblank := blank_not_mem_strippedName name
  have hprimary : 32 ∉ primaryName (strippedName name) := fun h =>
    hblank ((List.takeWhile_sublist _).mem (List.mem_of_mem_take h))
  have hne (h : strippedName name ≠ []) : primaryName (strippedName name) ≠ [] :=
    mt (primaryName_eq_nil_iff name).mp h
  by_cases hplain : IsPlain name
  · have hperiod := (strippedName_eq_of_valid hplain.1).2
    have hext := (pad_extension_iff hblank).mpr (.inl hperiod)
    rw [FollowsAlgorithm, shortFilename_of_isPlain hname hplain]
    constructor
    · rintro ⟨s, heq, hlength, -, hbase⟩
      obtain rfl := Except.ok.inj heq
      refine ⟨.inl hperiod, or_iff_not_imp_left.mpr fun htail => ?_, fun _ => ?_⟩
      · refine forall_blank_of_isPlain hplain (by_contra fun hnil => ?_)
        exact replicate_ne_pad (l := 7) (by decide) (hne hnil) hprimary (hbase htail)
      · rw [List.length_append] at hlength
        exact List.eq_nil_of_length_eq_zero (Nat.add_left_cancel hlength)
    · rintro ⟨-, htail, hbehind⟩
      rw [hbehind hplain]
      refine ⟨_, rfl, rfl, hext, fun hno => ?_⟩
      have hnil := strippedName_eq_nil (htail.resolve_left hno)
      rw [longFilename_of_valid hplain.1, hnil]
      rfl
  · rw [FollowsAlgorithm, shortFilename_of_not_isPlain hname hplain]
    constructor
    · rintro ⟨s, heq, -, hext, hbase⟩
      obtain rfl := Except.ok.inj heq
      refine ⟨(pad_extension_iff hblank).mp hext, .inl (by_contra fun htail => ?_),
        fun h => absurd h hplain⟩
      by_cases hnil : strippedName name = []
      · have hbase := hbase htail
        rw [hnil] at hbase
        exact absurd hbase (by decide)
      · exact replicate_ne_pad (l := 6) (by decide) (hne hnil) hprimary (hbase htail)
    · rintro ⟨hext, htail, -⟩
      have hneeds := htail.resolve_right fun h => hplain (isPlain_of_blank h)
      exact ⟨_, rfl, rfl, (pad_extension_iff hblank).mpr hext, fun h => absurd hneeds h⟩

/-- The name `A+`. The second character is not allowed. -/
theorem followsAlgorithm_plus : FollowsAlgorithm [] [65, 43] :=
  (followsAlgorithm_iff (by decide)).mpr
    ⟨.inl (by decide), .inl (.inl ⟨43, by decide, by decide, by decide⟩), fun _ => rfl⟩

/-- The short name of `a.txt` should be `A       TXT`, and that of `ab` should be `AB         `. -/
theorem not_followsAlgorithm_txt :
    (shortFilename [] [97, 46, 116, 120, 116] =
        .ok [32, 32, 32, 32, 32, 32, 126, 49, 32, 32, 32] ∧
      strippedName [97, 46, 116, 120, 116] = [65, 46, 84, 88, 84] ∧
      ¬NeedsTail [97, 46, 116, 120, 116] ∧ ¬FollowsAlgorithm [] [97, 46, 116, 120, 116]) ∧
    shortFilename [] [97, 98] = .ok [32, 32, 32, 32, 32, 32, 32, 65, 32, 32, 32] ∧
      strippedName [97, 98] = [65, 66] ∧ ¬NeedsTail [97, 98] ∧ ¬FollowsAlgorithm [] [97, 98] := by
  have hstripped : strippedName [97, 46, 116, 120, 116] = [65, 46, 84, 88, 84] := by decide
  have hstripped' : strippedName [97, 98] = [65, 66] := by decide
  have htail : ¬NeedsTail [97, 46, 116, 120, 116] := by
    rw [NeedsTail, hstripped, not_or, not_not]
    exact ⟨by decide, [65], [84, 88, 84], by decide, by decide, by decide, by decide, .inr rfl⟩
  have htail' : ¬NeedsTail [97, 98] := by
    rw [NeedsTail, hstripped', not_or, not_not]
    exact ⟨by decide, [65, 66], [], by decide, by decide, by decide, by decide, .inl rfl⟩
  have hrun : shortFilename [] [97, 46, 116, 120, 116] =
      .ok [32, 32, 32, 32, 32, 32, 126, 49, 32, 32, 32] := rfl
  have hrun' : shortFilename [] [97, 98] =
      .ok [32, 32, 32, 32, 32, 32, 32, 65, 32, 32, 32] := rfl
  refine ⟨⟨hrun, hstripped, htail, ?_⟩, hrun', hstripped', htail', ?_⟩
  · rintro ⟨s, heq, -, hext, -⟩
    obtain rfl := Except.ok.inj (hrun.symm.trans heq)
    rw [hstripped] at hext
    exact absurd hext (by decide)
  · rintro ⟨s, heq, -, -, hbase⟩
    obtain rfl := Except.ok.inj (hrun'.symm.trans heq)
    have hbase := hbase htail'
    rw [hstripped'] at hbase
    exact absurd hbase (by decide)

end Valkyrie.Fat32
