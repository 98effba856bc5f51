import CipherLink.Cbor.Segments

/-!
# Text read in windows

A text is read in windows of bytes that need not end where a character ends.
Every cut of a well-formed text lies at most three bytes behind the end of a
character, so the longest well-formed front of a window is found, and what is
held back for the next window is the beginning of the text that is left.
-/

namespace CipherLink

namespace Bytes

theorem ofString_ofList (cs : List Char) :
    ofString (String.ofList cs) = cs.flatMap String.utf8EncodeChar := by
  simp [ofString, List.utf8Encode]

theorem toByteArray_eq (s : String) : (⟨(ofString s).toArray⟩ : ByteArray) = s.toByteArray := by
  simp [ofString]

theorem ofString_injective {s t : String} (h : ofString s = ofString t) : s = t := by
  rw [← String.toByteArray_inj, ← toByteArray_eq, h, toByteArray_eq]

@[simp] theorem ofString_empty : ofString "" = [] := by
  simp [ofString]

@[simp] theorem ofString_append (s t : String) : ofString (s ++ t) = ofString s ++ ofString t := by
  simp [ofString]

theorem ofString_eq_nil {s : String} (h : ofString s = []) : s = "" :=
  ofString_injective (h.trans ofString_empty.symm)

theorem length_ofString (s : String) : (ofString s).length = s.utf8ByteSize := by
  simp [ofString]

theorem length_ofString_le (s : String) : (ofString s).length ≤ 4 * s.length := by
  obtain ⟨cs, rfl⟩ : ∃ cs, s = String.ofList cs := ⟨s.toList, String.ofList_toList.symm⟩
  rw [ofString_ofList, String.length_ofList]
  induction cs with
  | nil => decide
  | cons c cs ih =>
    have hsize := c.utf8Size_le_four
    rw [List.flatMap_cons, List.length_append, String.length_utf8EncodeChar, List.length_cons]
    omega

theorem utf8?_ofString (s : String) : utf8? (ofString s) = some s := by
  have hv : ByteArray.IsValidUTF8 ⟨(ofString s).toArray⟩ := by
    rw [toByteArray_eq]
    exact s.isValidUTF8
  simp only [utf8?, String.fromUTF8?, dif_pos hv, Option.some.injEq, ← String.toByteArray_inj]
  exact toByteArray_eq s

theorem eq_ofString_of_utf8? {bs : Bytes} {s : String} (h : utf8? bs = some s) :
    bs = ofString s := by
  unfold utf8? String.fromUTF8? at h
  split at h
  · simp only [Option.some.injEq] at h
    subst h
    simp [ofString, String.fromUTF8]
  · simp at h

theorem ofString_ascii : ∀ n < 128, ofString (String.ofList [Char.ofNat n]) = [UInt8.ofNat n] := by
  decide +kernel

theorem exists_ofString {bs : Bytes} (h : ∀ b ∈ bs, b.toNat < 128) : ∃ s, ofString s = bs := by
  induction bs with
  | nil => exact ⟨"", ofString_empty⟩
  | cons b bs ih =>
    obtain ⟨s, rfl⟩ := ih fun c hc => h c (List.mem_cons_of_mem b hc)
    refine ⟨String.ofList [Char.ofNat b.toNat] ++ s, ?_⟩
    rw [ofString_append, ofString_ascii b.toNat (h b List.mem_cons_self), UInt8.ofNat_toNat]
    rfl

theorem eq_append_of_ofString_eq {s t : String} {bs : Bytes} (h : ofString s = ofString t ++ bs) :
    ∃ u, s = t ++ u ∧ bs = ofString u := by
  have hbytes : t.toList.utf8Encode ++ ⟨bs.toArray⟩ = s.toList.utf8Encode := by
    simp only [String.utf8Encode_toList]
    rw [← toByteArray_eq s, h, ← toByteArray_eq t]
    apply ByteArray.ext
    simp
  obtain ⟨cs, hcs⟩ := List.isPrefix_of_utf8Encode_append_eq_utf8Encode _ hbytes
  have hs : s = t ++ String.ofList cs := by
    rw [← String.toList_inj, ← hcs]
    simp
  refine ⟨String.ofList cs, hs, ?_⟩
  rw [hs, ofString_append, List.append_cancel_left_eq] at h
  exact h.symm

theorem exists_boundary_chars (cs : List Char) {k : Nat}
    (hk : k ≤ (cs.flatMap String.utf8EncodeChar).length) :
    ∃ front back, cs = front ++ back ∧ (front.flatMap String.utf8EncodeChar).length ≤ k ∧
      k ≤ (front.flatMap String.utf8EncodeChar).length + 3 := by
  induction cs generalizing k with
  | nil =>
    simp only [List.flatMap_nil, List.length_nil, Nat.le_zero_eq] at hk
    exact ⟨[], [], rfl, by simp, by omega⟩
  | cons c cs ih =>
    have hc := c.utf8Size_le_four
    rw [← String.length_utf8EncodeChar] at hc
    simp only [List.flatMap_cons, List.length_append] at hk
    by_cases hlt : k < (String.utf8EncodeChar c).length
    · exact ⟨[], c :: cs, rfl, by simp, by simp only [List.flatMap_nil, List.length_nil]; omega⟩
    · obtain ⟨front, back, rfl, hle, hge⟩ := ih (k := k - (String.utf8EncodeChar c).length) (by omega)
      refine ⟨c :: front, back, rfl, ?_, ?_⟩ <;>
        simp only [List.flatMap_cons, List.length_append] <;> omega

theorem exists_boundary (s : String) {k : Nat} (hk : k ≤ (ofString s).length) :
    ∃ t u, s = t ++ u ∧ (ofString t).length ≤ k ∧ k ≤ (ofString t).length + 3 := by
  rw [← String.ofList_toList (s := s), ofString_ofList] at hk
  obtain ⟨front, back, hcs, hle, hge⟩ := exists_boundary_chars s.toList hk
  refine ⟨String.ofList front, String.ofList back, ?_, ?_, ?_⟩
  · rw [← String.toList_inj, hcs]
    simp
  · rwa [ofString_ofList]
  · rwa [ofString_ofList]

end Bytes

namespace Cbor

open Bytes (ofString utf8?)

theorem splitUtf8?_cut {s : String} {window others : Bytes} (h : ofString s = window ++ others) :
    ∃ t u held, splitUtf8? window = some (t, held) ∧ s = t ++ u ∧
      held ++ others = ofString u ∧ held.length ≤ 3 := by
  have hk : window.length ≤ (ofString s).length := by
    rw [h, List.length_append]
    omega
  obtain ⟨t, u, hs, hle, hge⟩ := Bytes.exists_boundary s hk
  have hfront : window.take (ofString t).length = ofString t := by
    rw [hs, Bytes.ofString_append] at h
    have htake := congrArg (List.take (ofString t).length) h
    rwa [List.take_left, List.take_append_of_le_length hle, eq_comm] at htake
  -- The boundary that is known to exist makes the search succeed.
  obtain ⟨⟨t', held⟩, hfound⟩ : ∃ found, splitUtf8? window = some found := by
    rw [← Option.isSome_iff_exists, splitUtf8?, List.findSome?_isSome_iff]
    refine ⟨window.length - (ofString t).length, ?_, ?_⟩
    · have hcases : window.length - (ofString t).length ≤ 3 := by omega
      simp only [List.mem_cons, List.not_mem_nil, or_false]
      omega
    · simp only [Nat.sub_sub_self hle, hfront, Bytes.utf8?_ofString]
      rfl
  obtain ⟨n, hn, hcut⟩ := List.exists_of_findSome?_eq_some hfound
  obtain ⟨text, htext, hpair⟩ := Option.map_eq_some_iff.mp hcut
  simp only [Prod.mk.injEq] at hpair
  obtain ⟨rfl, rfl⟩ := hpair
  have hwindow : window = ofString text ++ window.drop (window.length - n) := by
    rw [← Bytes.eq_ofString_of_utf8? htext, List.take_append_drop]
  rw [hwindow, List.append_assoc] at h
  obtain ⟨u', hu, hrest⟩ := Bytes.eq_append_of_ofString_eq h
  refine ⟨text, u', _, hfound, hu, hrest, ?_⟩
  simp only [List.mem_cons, List.not_mem_nil, or_false] at hn
  simp only [List.length_drop]
  omega

theorem splitUtf8?_ofString (s : String) : splitUtf8? (ofString s) = some (s, []) := by
  simp [splitUtf8?, Bytes.utf8?_ofString]

/-- The text of a segment is read whatever the windows are, behind what was held
back of the window before. -/
theorem readText_ofString {s : String} {held content : Bytes} (gathered : String) (rest : Bytes)
    (h : held ++ content = ofString s) (hheld : held.length ≤ 3)
    (hend : content = [] → held = []) :
    readText gathered content.length held (content ++ rest) = .ok (gathered ++ s, rest) := by
  induction hn : content.length using Nat.strongRecOn generalizing gathered s held content with
  | ind n ih =>
    unfold readText
    by_cases hzero : n = 0
    · have hcontent : content = [] := List.eq_nil_of_length_eq_zero (hn.trans hzero)
      have hs : s = "" := by
        apply Bytes.ofString_eq_nil
        rw [← h, hend hcontent, hcontent]
        rfl
      simp [hzero, hcontent, hend hcontent, hs]
    · let m := max 1 (min n (windowSize - held.length))
      have hm : 1 ≤ m ∧ m ≤ n := by
        simp only [m, windowSize]
        omega
      have hsplit : (content ++ rest).split? m = some (content.take m, content.drop m ++ rest) := by
        have happ := Bytes.split?_append (content.take m) (content.drop m ++ rest)
        rwa [← List.append_assoc, List.take_append_drop, List.length_take,
          Nat.min_eq_left (by omega)] at happ
      have hcut : ofString s = (held ++ content.take m) ++ content.drop m := by
        rw [List.append_assoc, List.take_append_drop, h]
      obtain ⟨t, u, held', hfound, hs, hrest, hlen⟩ := splitUtf8?_cut hcut
      have hleft : (content.drop m).length = n - max 1 (content.take m).length := by
        simp only [List.length_drop, List.length_take]
        omega
      have hdone : content.drop m = [] → held' = [] := by
        intro hnil
        rw [hnil, List.append_nil] at hcut
        rw [← hcut, splitUtf8?_ofString] at hfound
        simp only [Option.some.injEq, Prod.mk.injEq] at hfound
        exact hfound.2.symm
      have hnext := ih (content.drop m).length (by rw [List.length_drop]; omega) (gathered ++ t)
        hrest hlen hdone rfl
      rw [if_neg hzero]
      simp only [m] at hsplit hfound hnext hleft
      rw [hsplit]
      simp only [hfound]
      rw [← hleft, hnext, hs, String.append_assoc]

end Cbor

end CipherLink
