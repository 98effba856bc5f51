import CipherLink.Pem
import CipherLink.Proofs.Digits
import CipherLink.Proofs.Utf8
import Mathlib.Data.List.Basic

/-!
# Text read back

Base 64 reads back what it writes, group by group, and so do the lines of a named
block: a line of 64 digits holds 48 bytes, and only the last line may be shorter.
-/

namespace CipherLink

namespace Base64

theorem digit_facts : ∀ n < 64, value? (digit n) = some n ∧ digit n ≠ padding ∧
    digit n ≠ Pem.lineFeed ∧ digit n ≠ Pem.carriageReturn ∧ (digit n).toNat < 128 := by
  decide +kernel

theorem value?_digit {n : Nat} (h : n < 64) : value? (digit n) = some n :=
  (digit_facts n h).1

theorem digit_ne_padding {n : Nat} (h : n < 64) : digit n ≠ padding :=
  (digit_facts n h).2.1

theorem group?_digits {a b c d : Nat} (ha : a < 64) (hb : b < 64) (hc : c < 64) (hd : d < 64) :
    group? (digit a) (digit b) (digit c) (digit d) =
      some (Bytes.ofNat 3 (((a * 64 + b) * 64 + c) * 64 + d)) := by
  simp only [group?, value?_digit ha, value?_digit hb, value?_digit hc, value?_digit hd,
    Option.bind_eq_bind, Option.bind_some, pure]

theorem toNat_three (a b c : UInt8) :
    Bytes.toNat [a, b, c] = (a.toNat * 256 + b.toNat) * 256 + c.toNat := by
  simp [Bytes.toNat]

theorem group?_three (a b c : UInt8) :
    let n := (a.toNat * 256 + b.toNat) * 256 + c.toNat
    group? (digit (n >>> 18)) (digit ((n >>> 12) % 64)) (digit ((n >>> 6) % 64)) (digit (n % 64)) =
      some [a, b, c] := by
  intro n
  have ha := a.toNat_lt
  have hb := b.toNat_lt
  have hc := c.toNat_lt
  simp only [Nat.shiftRight_eq_div_pow]
  rw [group?_digits (by omega) (by omega) (by omega) (by omega)]
  have hsum : ((n / 2 ^ 18 * 64 + n / 2 ^ 12 % 64) * 64 + n / 2 ^ 6 % 64) * 64 + n % 64 =
      Bytes.toNat [a, b, c] := by
    rw [toNat_three]
    omega
  rw [hsum]
  exact congrArg some (Bytes.ofNat_toNat [a, b, c])

theorem lastGroup?_of_digit {d : UInt8} (h : d ≠ padding) (a b c : UInt8) :
    lastGroup? a b c d = group? a b c d := by
  simp only [lastGroup?, h, ne_eq, not_false_eq_true, if_true]

theorem lastGroup?_two (a b : UInt8) :
    let n := (a.toNat * 256 + b.toNat) * 4
    lastGroup? (digit (n >>> 12)) (digit ((n >>> 6) % 64)) (digit (n % 64)) padding =
      some [a, b] := by
  intro n
  have ha := a.toNat_lt
  have hb := b.toNat_lt
  have hsum : (n / 2 ^ 12 * 64 + n / 2 ^ 6 % 64) * 64 + n % 64 = n := by omega
  have hpair : n / 4 = Bytes.toNat [a, b] := by
    simp only [Bytes.toNat, List.foldl_cons, List.foldl_nil]
    omega
  have hlast := digit_ne_padding (show n % 64 < 64 by omega)
  simp only [Nat.shiftRight_eq_div_pow, lastGroup?, ne_eq, not_true_eq_false, if_false, hlast,
    not_false_eq_true, if_true, value?_digit (show n / 2 ^ 12 < 64 by omega),
    value?_digit (show n / 2 ^ 6 % 64 < 64 by omega), value?_digit (show n % 64 < 64 by omega),
    Option.bind_eq_bind, Option.bind_some, hsum]
  rw [if_pos (by omega), hpair]
  exact congrArg some (Bytes.ofNat_toNat [a, b])

theorem lastGroup?_one (a : UInt8) :
    let n := a.toNat * 16
    lastGroup? (digit (n >>> 6)) (digit (n % 64)) padding padding = some [a] := by
  intro n
  have ha := a.toNat_lt
  have hsum : n / 2 ^ 6 * 64 + n % 64 = n := by omega
  have hbyte : n / 16 = Bytes.toNat [a] := by
    simp only [Bytes.toNat, List.foldl_cons, List.foldl_nil]
    omega
  simp only [Nat.shiftRight_eq_div_pow, lastGroup?, ne_eq, not_true_eq_false, if_false,
    value?_digit (show n / 2 ^ 6 < 64 by omega), value?_digit (show n % 64 < 64 by omega),
    Option.bind_eq_bind, Option.bind_some, hsum]
  rw [if_pos (by omega), hbyte]
  exact congrArg some (Bytes.ofNat_toNat [a])

theorem decode?_cons {d : UInt8} (h : d ≠ padding) (mayPad : Bool) (a b c : UInt8)
    (rest : Bytes) :
    decode? mayPad (a :: b :: c :: d :: rest) =
      (group? a b c d).bind fun front => (decode? mayPad rest).map (front ++ ·) := by
  cases rest with
  | nil =>
    simp only [decode?, lastGroup?_of_digit h, ite_self, Option.map_some, List.append_nil]
    cases group? a b c d <;> rfl
  | cons e rest =>
    simp only [decode?, Option.bind_eq_bind, pure]
    cases group? a b c d with
    | none => rfl
    | some front => cases decode? mayPad (e :: rest) <;> rfl

theorem digit_mod_ne_padding (n : Nat) : digit (n % 64) ≠ padding :=
  digit_ne_padding (Nat.mod_lt _ (by decide))

theorem decode?_encode (bs : Bytes) : decode? true (encode bs) = some bs := by
  fun_induction encode bs with
  | case1 a b c rest n ih =>
    rw [decode?_cons (digit_mod_ne_padding n), group?_three, ih]
    rfl
  | case2 a b n => exact lastGroup?_two a b
  | case3 a n => exact lastGroup?_one a
  | case4 => rfl

theorem decode?_encode_whole {bs : Bytes} (h : 3 ∣ bs.length) :
    decode? false (encode bs) = some bs := by
  fun_induction encode bs with
  | case1 a b c rest n ih =>
    simp only [List.length_cons] at h
    rw [decode?_cons (digit_mod_ne_padding n), group?_three, ih (by omega)]
    rfl
  | case2 a b n => simp at h
  | case3 a n => simp at h
  | case4 => rfl

theorem encode_append {front : Bytes} (h : 3 ∣ front.length) (rest : Bytes) :
    encode (front ++ rest) = encode front ++ encode rest := by
  fun_induction encode front with
  | case1 a b c front n ih =>
    simp only [List.length_cons] at h
    simp only [List.cons_append, encode, ih (by omega)]
    rfl
  | case2 a b n => simp at h
  | case3 a n => simp at h
  | case4 => rfl

theorem length_encode (bs : Bytes) : (encode bs).length = (bs.length + 2) / 3 * 4 := by
  fun_induction encode bs with
  | case1 a b c rest n ih =>
    simp only [List.length_cons, ih]
    omega
  | case2 a b n => simp
  | case3 a n => simp
  | case4 => rfl

def IsSymbol (b : UInt8) : Prop :=
  b ≠ Pem.lineFeed ∧ b ≠ Pem.carriageReturn ∧ b.toNat < 128

theorem isSymbol_digit {n : Nat} (h : n < 64) : IsSymbol (digit n) :=
  (digit_facts n h).2.2

theorem isSymbol_of_mem_encode {bs : Bytes} {b : UInt8} (h : b ∈ encode bs) : IsSymbol b := by
  have hpadding : IsSymbol padding := ⟨by decide, by decide, by decide⟩
  have hmod (n : Nat) : IsSymbol (digit (n % 64)) := isSymbol_digit (Nat.mod_lt _ (by decide))
  fun_induction encode bs with
  | case1 x y z rest n ih =>
    have hx := x.toNat_lt
    have hy := y.toNat_lt
    have hz := z.toNat_lt
    simp only [List.mem_cons] at h
    rcases h with rfl | rfl | rfl | rfl | h
    · exact isSymbol_digit (by rw [Nat.shiftRight_eq_div_pow]; omega)
    · exact hmod _
    · exact hmod _
    · exact hmod _
    · exact ih h
  | case2 x y n =>
    have hx := x.toNat_lt
    have hy := y.toNat_lt
    simp only [List.mem_cons, List.not_mem_nil, or_false] at h
    rcases h with rfl | rfl | rfl | rfl
    · exact isSymbol_digit (by rw [Nat.shiftRight_eq_div_pow]; omega)
    · exact hmod _
    · exact hmod _
    · exact hpadding
  | case3 x n =>
    have hx := x.toNat_lt
    simp only [List.mem_cons, List.not_mem_nil, or_false] at h
    rcases h with rfl | rfl | rfl | rfl
    · exact isSymbol_digit (by rw [Nat.shiftRight_eq_div_pow]; omega)
    · exact hmod _
    · exact hpadding
    · exact hpadding
  | case4 => simp at h

end Base64

namespace Pem

def lines (content : Bytes) : Bytes :=
  (Bytes.chunks lineWidth (Base64.encode content)).flatMap fun line => line ++ [lineFeed]

theorem trimLineEnd_encode (bs : Bytes) : trimLineEnd (Base64.encode bs) = Base64.encode bs := by
  have hstrip : stripFinalLineEnd? (Base64.encode bs).reverse = none := by
    cases hreverse : (Base64.encode bs).reverse with
    | nil => rfl
    | cons b rest =>
      have hb : b ∈ Base64.encode bs := by
        rw [← List.mem_reverse, hreverse]
        exact List.mem_cons_self
      obtain ⟨hfeed, hreturn, -⟩ := Base64.isSymbol_of_mem_encode hb
      simp only [stripFinalLineEnd?, hfeed, hreturn, if_false]
  rw [trimLineEnd, hstrip]

theorem stripFinalLineEnd?_snoc (text : Bytes) {b : UInt8} (h : b ≠ carriageReturn) :
    stripFinalLineEnd? (text ++ [b, lineFeed]).reverse = some (text ++ [b]).reverse := by
  simp only [List.reverse_append, List.reverse_cons, List.reverse_nil, List.nil_append,
    List.cons_append, stripFinalLineEnd?, if_true, h, if_false]

theorem decodeLines?_line {text : Bytes} {line rest content more : Bytes}
    (htext : text = line ++ lineFeed :: rest) (hline : line.length = lineWidth) (hrest : rest ≠ [])
    (hcontent : Base64.decode? false line = some content) (hmore : decodeLines? rest = some more) :
    decodeLines? text = some (content ++ more) := by
  have hlong : ¬text.length ≤ lineWidth := by
    rw [htext, List.length_append, List.length_cons]
    omega
  have hstrip : stripLineEnd? (text.drop lineWidth) = some rest := by
    rw [htext, ← hline, List.drop_left]
    simp only [stripLineEnd?, if_true]
  have htake : text.take lineWidth = line := by
    rw [htext, ← hline, List.take_left]
  rw [decodeLines?, if_neg hlong]
  split
  · next hnone => simp [hstrip] at hnone
  · next others hothers =>
    rw [hstrip, Option.some.injEq] at hothers
    subst hothers
    rw [if_neg (by simpa using hrest), htake, hcontent, hmore]
    rfl

theorem exists_lines {content : Bytes} (h : content ≠ []) :
    ∃ text b, lines content = text ++ [b, lineFeed] ∧ b ≠ carriageReturn ∧
      decodeLines? (text ++ [b]) = some content := by
  induction hn : content.length using Nat.strongRecOn generalizing content with
  | ind n ih =>
    have hnonempty : Base64.encode content ≠ [] := by
      intro hnil
      have hlength := Base64.length_encode content
      have hpos := List.length_pos_iff.mpr h
      rw [hnil, List.length_nil] at hlength
      omega
    by_cases hshort : (Base64.encode content).length ≤ lineWidth
    · obtain ⟨text, b, htext⟩ : ∃ text b, Base64.encode content = text ++ [b] :=
        ⟨_, _, (List.dropLast_concat_getLast hnonempty).symm⟩
      refine ⟨text, b, ?_, ?_, ?_⟩
      · rw [lines, Bytes.chunks_of_ne_nil hnonempty (by decide), List.take_of_length_le hshort,
          List.drop_of_length_le hshort, Bytes.chunks, List.flatMap_singleton, htext]
        simp
      · exact (Base64.isSymbol_of_mem_encode (by rw [htext]; simp)).2.1
      · rw [← htext, decodeLines?, if_pos hshort, trimLineEnd_encode, Base64.decode?_encode]
    · have hlong : 48 < content.length := by
        have hlength := Base64.length_encode content
        simp only [lineWidth] at hshort
        omega
      have hfront : (content.take 48).length = 48 := by
        rw [List.length_take]
        omega
      have hline : (Base64.encode (content.take 48)).length = lineWidth := by
        rw [Base64.length_encode, hfront]
        rfl
      have hsplit : Base64.encode content =
          Base64.encode (content.take 48) ++ Base64.encode (content.drop 48) := by
        rw [← Base64.encode_append (by rw [hfront]; decide), List.take_append_drop]
      have hdrop : content.drop 48 ≠ [] := by
        intro hnil
        have := List.drop_eq_nil_iff.mp hnil
        omega
      obtain ⟨text, b, hlines, hb, hdecode⟩ :=
        ih (content.drop 48).length (by rw [List.length_drop]; omega) hdrop rfl
      refine ⟨Base64.encode (content.take 48) ++ lineFeed :: text, b, ?_, hb, ?_⟩
      · rw [lines, Bytes.chunks_of_ne_nil hnonempty (by decide), hsplit, ← hline, List.take_left,
          List.drop_left, List.flatMap_cons, hline, ← lines, hlines]
        simp
      · rw [← List.take_append_drop 48 content]
        exact decodeLines?_line (by simp) hline (by simp)
          (Base64.decode?_encode_whole (by rw [hfront]; decide)) hdecode

theorem encode_eq (label : String) (content : Bytes) :
    encode label content =
      beginLine label ++ lineFeed :: (lines content ++ (endLine label ++ [lineFeed])) := by
  simp [encode, lines]

theorem skipPreamble?_opening {text : Bytes} (h : opening.isPrefixOf text = true) :
    skipPreamble? true text = some text := by
  cases text with
  | nil => exact absurd h (by decide)
  | cons b bs => simp only [skipPreamble?, h, and_self, if_true]

theorem decode?_encode (label : String) {content : Bytes} (h : content ≠ []) :
    decode? label (encode label content) = some content := by
  obtain ⟨text, b, hlines, hb, hdecode⟩ := exists_lines h
  have hopening : opening.isPrefixOf (encode label content) = true := by
    rw [encode_eq, beginLine, Bytes.ofString_append, Bytes.ofString_append, ← opening,
      List.isPrefixOf_iff_prefix]
    simp [List.append_assoc]
  have hbegin : (beginLine label).isPrefixOf? (encode label content) =
      some (lineFeed :: (lines content ++ (endLine label ++ [lineFeed]))) := by
    rw [List.isPrefixOf?_eq_some_iff_append_eq, encode_eq]
  have hend : endLine label =
      Bytes.ofString ("-----END " ++ label) ++ Bytes.ofString "----" ++ [45] := by
    rw [endLine, Bytes.ofString_append, List.append_assoc]
    congr 1
  have htrim : trimLineEnd (lines content ++ (endLine label ++ [lineFeed])) =
      lines content ++ endLine label := by
    have hstrip := stripFinalLineEnd?_snoc (lines content ++ (Bytes.ofString ("-----END " ++ label) ++
      Bytes.ofString "----")) (show (45 : UInt8) ≠ carriageReturn by decide)
    rw [hend]
    simp only [List.append_assoc, List.cons_append, List.nil_append] at hstrip ⊢
    rw [trimLineEnd, hstrip]
    exact List.reverse_reverse _
  have hsuffix : (endLine label).isSuffixOf? (lines content ++ endLine label) =
      some (lines content) :=
    List.isSuffixOf?_eq_some_iff_append_eq.mpr rfl
  simp only [decode?, skipPreamble?_opening hopening, hbegin, stripLineEnd?, if_true, htrim,
    hsuffix, Option.bind_eq_bind, Option.bind_some]
  rw [hlines, stripFinalLineEnd?_snoc text hb, Option.bind_some, List.reverse_reverse, hdecode]

theorem utf8?_encode (label : String) (content : Bytes) :
    ∃ s, (encode label content).utf8? = some s := by
  obtain ⟨s, hs⟩ : ∃ s, Bytes.ofString s = lines content := by
    apply Bytes.exists_ofString
    intro b hb
    obtain ⟨line, hline, hb⟩ := List.mem_flatMap.mp hb
    rcases List.mem_append.mp hb with hb | hb
    · have hflat : b ∈ (Bytes.chunks lineWidth (Base64.encode content)).flatten :=
        List.mem_flatten.mpr ⟨line, hline, hb⟩
      rw [Bytes.flatten_chunks] at hflat
      exact (Base64.isSymbol_of_mem_encode hflat).2.2
    · rw [List.mem_singleton.mp hb]
      decide
  have hfeed : Bytes.ofString "\n" = [lineFeed] := by decide +kernel
  have htext : Bytes.ofString ("-----BEGIN " ++ label ++ "-----" ++ "\n" ++ s ++
      ("-----END " ++ label ++ "-----") ++ "\n") = encode label content := by
    rw [encode_eq, Bytes.ofString_append, Bytes.ofString_append, Bytes.ofString_append,
      Bytes.ofString_append _ "\n", hfeed, hs, ← beginLine, ← endLine]
    simp only [List.append_assoc, List.cons_append, List.nil_append]
  exact ⟨_, htext ▸ Bytes.utf8?_ofString _⟩

end Pem

end CipherLink
