import CipherLink.Stream

/-!
# Reading from pieces and writing to sinks

A source that delivers bytes in pieces fills a request with the same bytes
however they are cut, and what is left is again in pieces. A sink takes all that
is written to it, or a front of it when it fails.
-/

namespace CipherLink

namespace Source

/-- Whether a source delivers these bytes, in pieces of any length, in front of
what follows. -/
def Delivers (source : Source) (bytes : Bytes) (tail : Source) : Prop :=
  ∃ pieces : List Bytes, pieces.flatten = bytes ∧ source = ofPieces pieces ++ tail

theorem delivers_ofPieces {pieces : List Bytes} {bytes : Bytes} (h : pieces.flatten = bytes) :
    (ofPieces pieces).Delivers bytes [] :=
  ⟨pieces, h, (List.append_nil _).symm⟩

theorem delivers_nil (source : Source) : source.Delivers [] source :=
  ⟨[], rfl, rfl⟩

theorem delivers_live : live.Delivers [] live :=
  delivers_nil live

theorem Delivers.arrive {source : Source} {bytes : Bytes} (h : source.Delivers bytes live)
    (more : Bytes) : (source.arrive more).Delivers (bytes ++ more) live := by
  obtain ⟨pieces, rfl, rfl⟩ := h
  refine ⟨pieces ++ [more], by simp, ?_⟩
  induction pieces with
  | nil => rfl
  | cons piece pieces ih =>
    simp only [ofPieces, List.map_cons, List.cons_append, Source.arrive] at ih ⊢
    rw [ih]

theorem fillFrom_zero (before : Bytes) (source : Source) :
    fillFrom 0 before source = .full before source := by
  cases source with
  | nil => rfl
  | cons packet source => cases packet <;> simp [fillFrom]

theorem fillFrom_pieces {pieces : List Bytes} {front rest : Bytes} (before : Bytes)
    (tail : Source) (h : pieces.flatten = front ++ rest) :
    ∃ others : List Bytes, others.flatten = rest ∧
      fillFrom front.length before (ofPieces pieces ++ tail) =
        .full (before ++ front) (ofPieces others ++ tail) := by
  induction pieces generalizing front before with
  | nil =>
    obtain ⟨rfl, rfl⟩ := List.append_eq_nil_iff.mp h.symm
    refine ⟨[], rfl, ?_⟩
    rw [List.length_nil, fillFrom_zero, List.append_nil]
  | cons piece pieces ih =>
    rw [List.flatten_cons] at h
    by_cases hle : front.length ≤ piece.length
    · have htake : (piece ++ pieces.flatten).take front.length = piece.take front.length :=
        List.take_append_of_le_length hle
      have hfront : piece.take front.length = front := by
        rw [← htake, h, List.take_left]
      have hrest : piece.drop front.length ++ pieces.flatten = rest := by
        rw [← List.drop_append_of_le_length hle, h, List.drop_left]
      refine ⟨piece.drop front.length :: pieces, hrest, ?_⟩
      simp only [ofPieces, List.map_cons, List.cons_append, fillFrom, hle, if_true, hfront]
    · have htake : (front ++ rest).take piece.length = front.take piece.length :=
        List.take_append_of_le_length (by omega)
      have hpiece : front.take piece.length = piece := by
        rw [← htake, ← h, List.take_left]
      have hpieces : pieces.flatten = front.drop piece.length ++ rest := by
        rw [← List.drop_append_of_le_length (by omega), ← h, List.drop_left]
      obtain ⟨others, hothers, hfill⟩ := ih (before ++ piece) hpieces
      refine ⟨others, hothers, ?_⟩
      have hfront := List.take_append_drop piece.length front
      rw [hpiece] at hfront
      simp only [ofPieces, List.map_cons, List.cons_append, fillFrom, hle, if_false] at hfill ⊢
      rw [List.append_assoc, hfront, List.length_drop] at hfill
      exact hfill

theorem Delivers.fill {source tail : Source} {front rest : Bytes} {n : Nat}
    (h : source.Delivers (front ++ rest) tail) (hn : front.length = n) :
    ∃ others : Source, others.Delivers rest tail ∧ source.fill n = .full front others := by
  obtain ⟨pieces, hpieces, rfl⟩ := h
  subst hn
  obtain ⟨others, hothers, hfill⟩ := fillFrom_pieces [] tail hpieces
  exact ⟨_, ⟨others, hothers, rfl⟩, hfill⟩

theorem fillFrom_short {pieces : List Bytes} {left : Nat} (before : Bytes) (tail : Source)
    (h : pieces.flatten.length < left) :
    fillFrom left before (ofPieces pieces ++ tail) =
      fillFrom (left - pieces.flatten.length) (before ++ pieces.flatten) tail := by
  induction pieces generalizing left before with
  | nil => simp [ofPieces]
  | cons piece pieces ih =>
    rw [List.flatten_cons, List.length_append] at h
    have hle : ¬left ≤ piece.length := by omega
    have hnext := ih (before ++ piece) (show pieces.flatten.length < left - piece.length by omega)
    simp only [ofPieces, List.map_cons, List.cons_append, fillFrom, hle, if_false] at hnext ⊢
    rw [hnext, List.flatten_cons, List.length_append, List.append_assoc, Nat.sub_sub]

theorem Delivers.fill_ended {source : Source} {bytes : Bytes} {n : Nat}
    (h : source.Delivers bytes []) (hlt : bytes.length < n) : source.fill n = .ended bytes := by
  obtain ⟨pieces, rfl, rfl⟩ := h
  rw [Source.fill, fillFrom_short [] [] hlt, fillFrom, if_neg (by omega), List.nil_append]

theorem Delivers.fill_failed {source rest : Source} {bytes : Bytes} {fault : StreamFault} {n : Nat}
    (h : source.Delivers bytes (.fault fault :: rest)) (hlt : bytes.length < n) :
    source.fill n = .failed bytes fault rest := by
  obtain ⟨pieces, rfl, rfl⟩ := h
  rw [Source.fill, fillFrom_short [] _ hlt, fillFrom, if_neg (by omega), List.nil_append]

theorem Delivers.fill_silent {source : Source} {bytes : Bytes} {n : Nat}
    (h : source.Delivers bytes live) (hlt : bytes.length < n) : source.fill n = .silent live := by
  obtain ⟨pieces, rfl, rfl⟩ := h
  rw [Source.fill, fillFrom_short [] live hlt, live, fillFrom, if_neg (by omega)]

@[simp] theorem grains_data (bytes : Bytes) (source : Source) :
    grains (.data bytes :: source) = units bytes ++ source.grains := rfl

@[simp] theorem grains_fault (fault : StreamFault) (source : Source) :
    grains (.fault fault :: source) = .fault fault :: source.grains := rfl

@[simp] theorem grains_silence (source : Source) :
    grains (.silence :: source) = .silence :: source.grains := rfl

theorem grains_append (source other : Source) :
    grains (source ++ other) = source.grains ++ other.grains :=
  List.flatMap_append

@[simp] theorem units_append (bytes others : Bytes) :
    units (bytes ++ others) = units bytes ++ units others :=
  List.map_append

theorem units_eq_ofPieces (bytes : Bytes) : units bytes = ofPieces (bytes.map ([·])) :=
  List.map_map.symm

theorem flatten_singletons (bytes : Bytes) : (bytes.map ([·])).flatten = bytes := by
  rw [← List.flatMap_def, List.flatMap_singleton']

@[simp] theorem grains_units (bytes : Bytes) : grains (units bytes) = units bytes := by
  induction bytes with
  | nil => rfl
  | cons b bytes ih => exact congrArg (.data [b] :: ·) ih

@[simp] theorem grains_grains (source : Source) : source.grains.grains = source.grains := by
  induction source with
  | nil => rfl
  | cons packet source ih => cases packet <;> simp [grains_append, ih]

@[simp] theorem grains_ofPieces (pieces : List Bytes) :
    (ofPieces pieces).grains = units pieces.flatten := by
  induction pieces with
  | nil => rfl
  | cons piece pieces ih =>
    simp only [ofPieces, List.map_cons, grains_data, List.flatten_cons, units_append] at ih ⊢
    rw [ih]

theorem silence_mem_grains {source : Source} : .silence ∈ source.grains ↔ .silence ∈ source := by
  induction source with
  | nil => rfl
  | cons packet source ih => cases packet <;> simp [units, ih]

theorem Delivers.grains {source tail : Source} {bytes : Bytes} (h : source.Delivers bytes tail) :
    source.grains = units bytes ++ tail.grains := by
  obtain ⟨pieces, rfl, rfl⟩ := h
  rw [grains_append, grains_ofPieces]

theorem bytes_append (source other : Source) :
    bytes (source ++ other) = source.bytes ++ other.bytes :=
  List.flatMap_append

@[simp] theorem bytes_units (bytes : Bytes) : (units bytes).bytes = bytes := by
  induction bytes with
  | nil => rfl
  | cons b bytes ih => exact congrArg (b :: ·) ih

@[simp] theorem bytes_grains (source : Source) : source.grains.bytes = source.bytes := by
  induction source with
  | nil => rfl
  | cons packet source ih =>
    cases packet with
    | data piece => rw [grains_data, bytes_append, bytes_units, ih]; rfl
    | fault fault => exact ih
    | silence => exact ih

theorem Delivers.bytes {source tail : Source} {bytes : Bytes} (h : source.Delivers bytes tail) :
    source.bytes = bytes ++ tail.bytes := by
  rw [← bytes_grains, h.grains, bytes_append, bytes_units, bytes_grains]

def Fill.grains : Fill → Fill
  | .full bytes rest => .full bytes rest.grains
  | .ended bytes => .ended bytes
  | .failed bytes fault rest => .failed bytes fault rest.grains
  | .silent rest => .silent rest.grains

theorem fillFrom_grains (left : Nat) (before : Bytes) (source : Source) :
    (fillFrom left before source.grains).grains = (fillFrom left before source).grains := by
  induction source generalizing left before with
  | nil => rfl
  | cons packet source ih =>
    cases packet with
    | data piece =>
      rw [grains_data, units_eq_ofPieces, fillFrom]
      by_cases hle : left ≤ piece.length
      · have hlength : (piece.take left).length = left := List.length_take_of_le hle
        have hpieces : (piece.map ([·])).flatten = piece.take left ++ piece.drop left := by
          rw [flatten_singletons, List.take_append_drop]
        obtain ⟨others, hothers, hfill⟩ := fillFrom_pieces before (grains source) hpieces
        rw [hlength] at hfill
        rw [hfill, if_pos hle, Fill.grains, Fill.grains, grains_append, grains_ofPieces, hothers,
          grains_grains, grains_data]
      · rw [fillFrom_short before (grains source) (by rw [flatten_singletons]; omega),
          flatten_singletons, if_neg hle, ih]
    | fault fault =>
      rw [grains_fault, fillFrom, fillFrom]
      split <;> simp [Fill.grains]
    | silence =>
      rw [grains_silence, fillFrom, fillFrom]
      split <;> simp [Fill.grains]

theorem fill_congr {source source' : Source} (h : source.grains = source'.grains) (n : Nat) :
    (source.fill n).grains = (source'.fill n).grains := by
  rw [fill, fill, ← fillFrom_grains, h, fillFrom_grains]

inductive Fills (source : Source) (left : Nat) (before : Bytes) : Fill → Prop
  | full {front : Bytes} {rest : Source} (length : front.length = left)
      (stream : source.grains = units front ++ rest.grains) :
      Fills source left before (.full (before ++ front) rest)
  | ended {front : Bytes} (length : front.length < left) (delivers : source.Delivers front []) :
      Fills source left before (.ended (before ++ front))
  | failed {front : Bytes} {fault : StreamFault} {rest : Source} (length : front.length < left)
      (delivers : source.Delivers front (.fault fault :: rest)) :
      Fills source left before (.failed (before ++ front) fault rest)
  | silent {front : Bytes} {rest : Source} (length : front.length < left)
      (delivers : source.Delivers front (.silence :: rest)) :
      Fills source left before (.silent (.silence :: rest))

theorem Delivers.cons {source tail : Source} {bytes : Bytes} (h : source.Delivers bytes tail)
    (piece : Bytes) : Delivers (.data piece :: source) (piece ++ bytes) tail := by
  obtain ⟨pieces, rfl, rfl⟩ := h
  exact ⟨piece :: pieces, rfl, rfl⟩

theorem Fills.cons {source : Source} {piece : Bytes} {left : Nat} {before : Bytes} {fill : Fill}
    (h : source.Fills (left - piece.length) (before ++ piece) fill) (hle : ¬ left ≤ piece.length) :
    Fills (.data piece :: source) left before fill := by
  cases h with
  | full length stream =>
    rw [List.append_assoc]
    refine .full ?_ ?_
    · rw [List.length_append]
      omega
    · rw [grains_data, stream, units_append, List.append_assoc]
  | ended length delivers =>
    rw [List.append_assoc]
    exact .ended (by rw [List.length_append]; omega) (delivers.cons piece)
  | failed length delivers =>
    rw [List.append_assoc]
    exact .failed (by rw [List.length_append]; omega) (delivers.cons piece)
  | silent length delivers =>
    exact .silent (by rw [List.length_append]; omega) (delivers.cons piece)

theorem fills_zero (source : Source) (before : Bytes) :
    source.Fills 0 before (.full before source) := by
  have h : source.Fills 0 before (.full (before ++ []) source) := .full rfl rfl
  rwa [List.append_nil] at h

theorem fills_fillFrom (source : Source) (left : Nat) (before : Bytes) :
    source.Fills left before (fillFrom left before source) := by
  induction source generalizing left before with
  | nil =>
    rw [fillFrom]
    split
    · next hleft => exact hleft ▸ fills_zero [] before
    · next hleft =>
      have h : Fills [] left before (.ended (before ++ [])) :=
        .ended (Nat.pos_of_ne_zero hleft) (delivers_nil [])
      rwa [List.append_nil] at h
  | cons packet source ih =>
    cases packet with
    | data piece =>
      rw [fillFrom]
      split
      · next hle =>
        refine .full (List.length_take_of_le hle) ?_
        rw [grains_data, grains_data, ← List.append_assoc, ← units_append, List.take_append_drop]
      · next hle => exact (ih _ _).cons hle
    | fault fault =>
      rw [fillFrom]
      split
      · next hleft => exact hleft ▸ fills_zero _ before
      · next hleft =>
        have h : Fills (.fault fault :: source) left before (.failed (before ++ []) fault source) :=
          .failed (Nat.pos_of_ne_zero hleft) (delivers_nil _)
        rwa [List.append_nil] at h
    | silence =>
      rw [fillFrom]
      split
      · next hleft => exact hleft ▸ fills_zero _ before
      · next hleft =>
        have hshort : ([] : Bytes).length < left := Nat.pos_of_ne_zero hleft
        exact .silent hshort (delivers_nil _)

theorem bytes_of_fillFrom {source rest : Source} {left : Nat} {before bytes : Bytes}
    (h : fillFrom left before source = .full bytes rest) :
    ∃ front : Bytes, bytes = before ++ front ∧ front.length = left ∧
      source.bytes = front ++ rest.bytes := by
  have hfills := source.fills_fillFrom left before
  rw [h] at hfills
  cases hfills with
  | @full front _ length stream =>
    refine ⟨front, rfl, length, ?_⟩
    rw [← bytes_grains, stream, bytes_append, bytes_units, bytes_grains]

theorem split?_bytes {source rest : Source} {n : Nat} {bytes : Bytes}
    (h : source.fill n = .full bytes rest) :
    Bytes.split? n source.bytes = some (bytes, rest.bytes) := by
  obtain ⟨front, rfl, rfl, hbytes⟩ := bytes_of_fillFrom h
  rw [hbytes]
  exact Bytes.split?_append _ _

end Source

namespace Sink

theorem write_eq_ok {sink sink' : Sink} {bs : Bytes} (h : sink.write bs = (sink', none)) :
    sink' = { sink with taken := sink.taken ++ bs } := by
  rw [write] at h
  split at h
  · exact (Prod.mk.inj h).1.symm
  · dsimp only at h
    split at h
    · exact (Prod.mk.inj h).1.symm
    · simp at h

theorem writeFlush_cases (sink : Sink) (bs : Bytes) :
    sink.writeFlush bs = ({ sink with taken := sink.taken ++ bs }, none) ∨
      ∃ part fault, part <+: bs ∧
        sink.writeFlush bs = ({ sink with taken := sink.taken ++ part }, some fault) := by
  rw [writeFlush]
  split
  · next written hwrite =>
    rw [write_eq_ok hwrite]
    cases hflush : sink.flushFault with
    | none => exact .inl rfl
    | some fault => exact .inr ⟨bs, fault, List.prefix_refl bs, rfl⟩
  · next hfailed =>
    rw [write] at hfailed ⊢
    cases hroom : sink.room with
    | none => simp [hroom] at hfailed
    | some room =>
      obtain ⟨limit, fault⟩ := room
      simp only [hroom] at hfailed ⊢
      split at hfailed
      · simp at hfailed
      · next hlarge =>
        rw [if_neg hlarge]
        exact .inr ⟨_, fault, List.take_prefix _ bs, rfl⟩

end Sink

end CipherLink
