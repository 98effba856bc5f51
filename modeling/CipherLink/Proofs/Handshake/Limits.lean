import CipherLink.Handshake.Transcript
import CipherLink.Proofs.Handshake.Disclosure

/-!
# Limits of a handshake

A handshake stops at the first number that it hears and that does not keep its limit, with
the error that names the number, and takes nothing more from its stream. So what it hears
is bounded, whatever the other side sends.
-/

namespace CipherLink.Handshake

open Dialogue

variable {α β : Type}

namespace Announcement

/-- What an announcement that does not keep its limit does to a handshake. -/
structure Obeyed (a : Announcement) (cause : HandshakeError) : Prop where
  negative : a.value < 0 → cause = .negativeLength a.value ∧ a.behind = []
  large : a.limit < a.value → cause = .fieldTooLarge a.value.toNat a.limit ∧ a.behind = []

theorem Within.obeyed {a : Announcement} (h : a.Within) (cause : HandshakeError) :
    a.Obeyed cause :=
  ⟨fun hlt => absurd h.1 (not_le.mpr hlt), fun hlt => absurd h.2 (not_le.mpr hlt)⟩

end Announcement

open Announcement (ofNumber ofContent ofField ofFields ofOffers ofHeard)

/-- How announcements are read from what a dialogue hears, in front of a reading of what
follows. -/
abbrev Reading := (Bytes → List Announcement) → Bytes → List Announcement

def Reading.Closed (reading : Reading) : Prop :=
  ∀ next, next [] = [] → reading next [] = []

/-- Whether a dialogue keeps the limits in what it hears, as a reading finds them there, and
hears at most so many bytes. When it is done all was within the limits, and the reading goes
on behind what it has heard. -/
structure Heeds (d : Dialogue α) (reading : Reading) (bound : Nat) : Prop where
  length : ∀ heard sent result, d.Admits heard sent result → heard.length ≤ bound
  done : ∀ heard sent a, d.Admits heard sent (.ok a) → ∀ next rest,
    ∀ x ∈ reading next (heard ++ rest), x.Within ∨ x ∈ next rest
  failed : ∀ heard sent cause, d.Admits heard sent (.error cause) → ∀ next, next [] = [] →
    ∀ x ∈ reading next heard, x.Obeyed cause

namespace Heeds

variable {d : Dialogue α} {f : α → Dialogue β} {reading reading' : Reading} {m n : Nat}

theorem mono (h : Heeds d reading m) (hle : m ≤ n) : Heeds d reading n :=
  { h with length := fun _ _ _ hadmits => Nat.le_trans (h.length _ _ _ hadmits) hle }

theorem of_speaks {bytes : Bytes} (h : d.Speaks bytes) : Heeds d (fun next => next) 0 where
  length _ _ _ hadmits := by rw [(h _ _ _ hadmits).1, List.length_nil]
  done _ _ _ hadmits _ _ _ hx := by
    rw [(h _ _ _ hadmits).1, List.nil_append] at hx
    exact .inr hx
  failed _ _ _ hadmits _ hnil _ hx := by
    rw [(h _ _ _ hadmits).1, hnil] at hx
    simp at hx

theorem bind (h : Heeds d reading m) (hclosed : Reading.Closed reading')
    (hf : ∀ a, Heeds (f a) reading' n) :
    Heeds (d >>= f) (fun next => reading (reading' next)) (m + n) where
  length heard sent result hadmits := by
    obtain ⟨cause, -, hd⟩ | ⟨a, first, rest, _, _, rfl, -, hd, hnext⟩ := admits_bind hadmits
    · exact Nat.le_trans (h.length _ _ _ hd) (Nat.le_add_right m n)
    · rw [List.length_append]
      exact Nat.add_le_add (h.length _ _ _ hd) ((hf a).length _ _ _ hnext)
  done heard sent b hadmits next rest x hx := by
    obtain ⟨cause, hcause, -⟩ | ⟨a, first, more, _, _, rfl, -, hd, hnext⟩ := admits_bind hadmits
    · simp at hcause
    · rw [List.append_assoc] at hx
      obtain hwithin | hx := h.done _ _ _ hd _ _ x hx
      · exact .inl hwithin
      · exact (hf a).done _ _ _ hnext _ _ x hx
  failed heard sent cause hadmits next hnil x hx := by
    obtain ⟨cause', hcause, hd⟩ | ⟨a, first, more, _, _, rfl, -, hd, hnext⟩ :=
      admits_bind hadmits
    · obtain rfl := Except.error.inj hcause
      exact h.failed _ _ _ hd _ (hclosed next hnil) x hx
    · obtain hwithin | hx := h.done _ _ _ hd _ _ x hx
      · exact hwithin.obeyed cause
      · exact (hf a).failed _ _ _ hnext _ hnil x hx

theorem after_speaks {bytes : Bytes} (h : d.Speaks bytes) (hclosed : Reading.Closed reading)
    (hf : ∀ a, Heeds (f a) reading n) : Heeds (d >>= f) reading n :=
  ((of_speaks h).bind hclosed hf).mono (Nat.le_of_eq (Nat.zero_add n))

theorem before_speaks (h : Heeds d reading n) (hf : ∀ a, (f a).Speaks []) :
    Heeds (d >>= f) reading n :=
  h.bind (fun _ hnil => hnil) fun a => of_speaks (hf a)

theorem enter {phase : Phase} (h : Heeds d reading n) : Heeds (.enter phase d) reading n where
  length _ _ _ hadmits := by
    cases hadmits with
    | enter hadmits => exact h.length _ _ _ hadmits
  done _ _ _ hadmits := by
    cases hadmits with
    | enter hadmits => exact h.done _ _ _ hadmits
  failed _ _ _ hadmits := by
    cases hadmits with
    | enter hadmits => exact h.failed _ _ _ hadmits

end Heeds

section

variable {heard sent : Bytes} {limit : Nat}

namespace Announcement

theorem ofNumber_of_lt {bs : Bytes} (h : bs.length < numberLength)
    (next : Nat → Bytes → List Announcement) : ofNumber limit next bs = [] := by
  rw [ofNumber, Bytes.split?_of_lt h]

theorem ofNumber_append {number : Bytes} (h : number.length = numberLength)
    (next : Nat → Bytes → List Announcement) (bs : Bytes) :
    ofNumber limit next (number ++ bs) = ⟨number.toInt, limit, bs⟩ ::
      if 0 ≤ number.toInt ∧ number.toInt ≤ limit then next number.toInt.toNat bs else [] := by
  rw [ofNumber, ← h, Bytes.split?_append]
  rfl

end Announcement

theorem admits_receiveNumber_ok {n : Nat}
    (h : (receiveNumber limit).Admits heard sent (.ok n)) :
    heard.length = numberLength ∧ (0 ≤ heard.toInt ∧ heard.toInt ≤ limit) ∧
      n = heard.toInt.toNat := by
  rw [receiveNumber] at h
  generalize hlength : numberLength = length at h ⊢
  cases h with
  | receive h =>
    dsimp only at h
    split at h
    · cases h
    · split at h
      · cases h
      · cases h
        rw [List.append_nil]
        exact ⟨rfl, ⟨by omega, by omega⟩, rfl⟩

theorem admits_receiveNumber_error {cause : HandshakeError}
    (h : (receiveNumber limit).Admits heard sent (.error cause)) :
    heard.length < numberLength ∨ heard.length = numberLength ∧
      ¬(0 ≤ heard.toInt ∧ heard.toInt ≤ limit) ∧
        Announcement.Obeyed ⟨heard.toInt, limit, []⟩ cause := by
  rw [receiveNumber] at h
  generalize hlength : numberLength = length at h ⊢
  cases h with
  | receiveCut hpart =>
    obtain rfl | hshort := hpart
    · exact .inl (hlength ▸ Nat.zero_lt_succ 3)
    · exact .inl hshort
  | receive h =>
    dsimp only at h
    split at h
    · next hnegative =>
      cases h
      rw [List.append_nil]
      exact .inr ⟨rfl, by omega, fun _ => ⟨rfl, rfl⟩, fun hlarge => by dsimp only at hlarge; omega⟩
    · next hsign =>
      split at h
      · next hlarge =>
        cases h
        rw [List.append_nil]
        exact .inr ⟨rfl, by omega, fun hnegative => absurd hnegative hsign, fun _ => ⟨rfl, rfl⟩⟩
      · cases h

theorem heeds_receiveNumber {f : Nat → Dialogue β} {reading : Nat → Reading} {n : Nat}
    (hf : ∀ m ≤ limit, Heeds (f m) (reading m) n) :
    Heeds (receiveNumber limit >>= f) (fun next => ofNumber limit fun m => reading m next)
      (numberLength + n) where
  length heard sent result hadmits := by
    obtain ⟨cause, -, hnumber⟩ | ⟨m, number, rest, _, _, rfl, -, hnumber, hnext⟩ :=
      admits_bind hadmits
    · obtain hshort | ⟨hwhole, -⟩ := admits_receiveNumber_error hnumber <;> omega
    · obtain ⟨hwhole, hwithin, rfl⟩ := admits_receiveNumber_ok hnumber
      rw [List.length_append, hwhole]
      exact Nat.add_le_add_left ((hf _ (by omega)).length _ _ _ hnext) _
  done heard sent b hadmits next rest x hx := by
    obtain ⟨cause, hcause, -⟩ | ⟨m, number, more, _, _, rfl, -, hnumber, hnext⟩ :=
      admits_bind hadmits
    · simp at hcause
    · obtain ⟨hwhole, hwithin, rfl⟩ := admits_receiveNumber_ok hnumber
      rw [List.append_assoc, Announcement.ofNumber_append hwhole, if_pos hwithin] at hx
      obtain rfl | hx := List.mem_cons.mp hx
      · exact .inl hwithin
      · exact (hf _ (by omega)).done _ _ _ hnext _ _ x hx
  failed heard sent cause hadmits next hnil x hx := by
    obtain ⟨cause', hcause, hnumber⟩ | ⟨m, number, more, _, _, rfl, -, hnumber, hnext⟩ :=
      admits_bind hadmits
    · obtain rfl := Except.error.inj hcause
      obtain hshort | ⟨hwhole, hwithin, hobeyed⟩ := admits_receiveNumber_error hnumber
      · simp [Announcement.ofNumber_of_lt hshort] at hx
      · rw [← List.append_nil heard, Announcement.ofNumber_append hwhole, if_neg hwithin] at hx
        exact List.mem_singleton.mp hx ▸ hobeyed
    · obtain ⟨hwhole, hwithin, rfl⟩ := admits_receiveNumber_ok hnumber
      rw [Announcement.ofNumber_append hwhole, if_pos hwithin] at hx
      obtain rfl | hx := List.mem_cons.mp hx
      · refine Announcement.Within.obeyed ?_ cause
        exact hwithin
      · exact (hf _ (by omega)).failed _ _ _ hnext _ hnil x hx

theorem heeds_receive (awaited : Awaited) (n : Nat) :
    Heeds (.receive awaited n .done) (fun next => ofContent next n) n where
  length heard sent result hadmits := by
    cases hadmits with
    | receiveCut hpart =>
      obtain rfl | hshort := hpart
      · exact Nat.zero_le n
      · exact Nat.le_of_lt hshort
    | receive hdone =>
      cases hdone
      rw [List.append_nil]
  done heard sent a hadmits next rest x hx := by
    cases hadmits with
    | receive hdone =>
      cases hdone
      rw [List.append_nil, ofContent, Bytes.split?_append] at hx
      exact .inr hx
  failed heard sent cause hadmits next hnil x hx := by
    rw [ofContent] at hx
    cases hadmits with
    | receiveCut hpart =>
      split at hx
      · simp at hx
      · next content rest hsplit =>
        -- Content that has come whole without being heard is empty, and nothing is behind it.
        have hlength := Bytes.split?_length hsplit
        obtain rfl | hshort := hpart
        · rw [List.length_nil] at hlength
          obtain rfl : rest = [] := List.eq_nil_of_length_eq_zero (by omega)
          simp [hnil] at hx
        · omega
    | receive hdone => cases hdone

theorem heeds_receiveField (limit : Nat) :
    Heeds (receiveField limit) (ofField limit) (numberLength + limit) :=
  heeds_receiveNumber fun n hle => (heeds_receive .content n).mono hle

theorem heeds_receiveEach (x : KeyExchange) (limit n : Nat) :
    Heeds (receiveEach x limit n) (fun next => ofFields limit next n)
      (n * (numberLength + limit)) := by
  induction n with
  | zero => exact (Heeds.of_speaks (speaks_done [])).mono (Nat.zero_le _)
  | succ n ih =>
    have hclosed : Reading.Closed fun next => ofFields limit next n := by
      cases n with
      | zero => exact fun _ hnil => hnil
      | succ n => exact fun _ _ => rfl
    have hbound : numberLength + limit + n * (numberLength + limit) ≤
        (n + 1) * (numberLength + limit) := by
      rw [Nat.succ_mul, Nat.add_comm]
    refine Heeds.mono ?_ hbound
    refine (heeds_receiveField limit).bind hclosed fun record => ?_
    refine .after_speaks (speaks_ofCrypto _) hclosed fun plain => ?_
    refine .after_speaks (speaks_decode plain) hclosed fun offer => ?_
    exact ih.before_speaks fun others => speaks_done _

def offersBound (limit : Nat) : Nat :=
  numberLength + maxOffers * (numberLength + limit)

theorem heeds_receiveOffers (x : KeyExchange) (limit : Nat) :
    Heeds (receiveOffers x limit) (ofOffers limit) (offersBound limit) :=
  heeds_receiveNumber fun n hle =>
    (heeds_receiveEach x limit n).mono (Nat.mul_le_mul_right _ hle)

theorem heeds_select {α : Type} [Algorithm α] (stage : Stage) (container : Container α)
    (x : KeyExchange) (limit : Nat) (noise : Noise) :
    Heeds (select stage container x limit noise) (ofOffers limit) (offersBound limit) := by
  rw [select_eq]
  refine .after_speaks (speaks_sendOffers _ _ _) (fun _ _ => rfl) fun _ => ?_
  exact (heeds_receiveOffers x limit).before_speaks fun theirs => speaks_settle stage _

theorem heeds_exchangeKeys (p : Party) (a : KeyExchangeAlgorithm) (noise : Noise) :
    Heeds (exchangeKeys p a noise) (ofField p.config.maxField)
      (numberLength + p.config.maxField) := by
  have hclosed : Reading.Closed (ofField p.config.maxField) := fun _ _ => rfl
  refine .after_speaks (speaks_obtainKeys p a noise) hclosed fun x => ?_
  refine .after_speaks (speaks_ofCrypto _) hclosed fun own => ?_
  refine .after_speaks (speaks_sendField own) hclosed fun _ => ?_
  exact (heeds_receiveField _).before_speaks fun theirs => speaks_ofCrypto _

theorem heeds_exchangePackages (x : KeyExchange) (own : KeyPackage) (limit : Nat)
    (noise : Noise) :
    Heeds (exchangePackages x own limit noise) (ofField limit) (numberLength + limit) := by
  have hclosed : Reading.Closed (ofField limit) := fun _ _ => rfl
  refine .after_speaks (speaks_ofCrypto _) hclosed fun record => ?_
  refine .after_speaks (speaks_sendField record) hclosed fun _ => ?_
  exact (heeds_receiveField limit).before_speaks fun theirs =>
    speaks_bind (speaks_ofCrypto _) fun plain _ _ _ => speaks_decode plain

theorem heeds_conclude (p : Party) (a : KeyExchangeAlgorithm) (x : KeyExchange)
    (s : SymmetricAlgorithm) :
    Heeds (conclude p a x s) (ofField p.config.maxField) (numberLength + p.config.maxField) := by
  rw [conclude_eq]
  refine .enter ((heeds_exchangePackages _ _ _ _).before_speaks fun theirs => ?_)
  exact speaks_enter (speaks_bind (speaks_ofCrypto _) fun encryptor _ _ _ =>
    speaks_bind (speaks_ofCrypto _) fun decryptor _ _ _ => speaks_enter (speaks_done _))

def hearingBound (limit : Nat) : Nat :=
  2 * offersBound limit + 2 * (numberLength + limit)

theorem heeds_dialogue (p : Party) :
    Heeds (dialogue p) (fun next => ofOffers p.config.maxField (ofField p.config.maxField
        (ofOffers p.config.maxField (ofField p.config.maxField next))))
      (hearingBound p.config.maxField) := by
  rw [dialogue_eq]
  have hbound : offersBound p.config.maxField + (numberLength + p.config.maxField +
      (offersBound p.config.maxField + (numberLength + p.config.maxField))) ≤
      hearingBound p.config.maxField := by
    rw [hearingBound]
    omega
  refine Heeds.mono ?_ hbound
  refine (heeds_select _ _ _ _ _).bind (fun _ _ => rfl) fun a => ?_
  rw [proceed_eq]
  refine .enter ((heeds_exchangeKeys p a _).bind (fun _ _ => rfl) fun x => ?_)
  exact (heeds_select _ _ _ _ _).bind (fun _ _ => rfl) fun s => heeds_conclude p a x s

end

/-- Whatever the other side sends, and wherever its stream, the sink or the time comes to an
end, a number that it announces and that is negative or beyond its limit ends the handshake
with just that error, and nothing is taken from the stream behind the number. Two lists of
at most 256 offers and two fields are the most that is taken at all. -/
theorem negotiate_keeps_limits {p : Party} {source : Source} {sink : Sink}
    {ended : Dialogue.Ended Link}
    (h : ended = negotiate p source sink ∨ ∃ n, ended = negotiateWithin p n source sink) :
    ∃ heard, source.bytes = heard ++ ended.source.bytes ∧
      (∀ a ∈ Announcement.ofHeard p.config.maxField heard,
        (a.value < 0 →
          ended.result = .error (.negativeLength a.value) ∧ a.behind = []) ∧
        (a.limit < a.value →
          ended.result = .error (.fieldTooLarge a.value.toNat a.limit) ∧ a.behind = [])) ∧
      heard.length ≤
        2 * (4 + 256 * (4 + p.config.maxField)) + 2 * (4 + p.config.maxField) := by
  obtain ⟨heard, sent, hheard, -, hadmits⟩ := admits_of_negotiate h
  have hheeds := heeds_dialogue p
  refine ⟨heard, hheard, ?_, hheeds.length _ _ _ hadmits⟩
  intro a ha
  cases hresult : ended.result with
  | ok link =>
    rw [hresult] at hadmits
    rw [← List.append_nil heard] at ha
    obtain hwithin | hnone := hheeds.done _ _ _ hadmits (fun _ => []) [] a ha
    · exact ⟨fun hlt => absurd hwithin.1 (not_le.mpr hlt),
        fun hlt => absurd hwithin.2 (not_le.mpr hlt)⟩
    · simp at hnone
  | error cause =>
    rw [hresult] at hadmits
    have hobeyed := hheeds.failed _ _ _ hadmits (fun _ => []) rfl a ha
    simp only [Except.error.injEq]
    exact ⟨hobeyed.negative, hobeyed.large⟩

/-- A list of one offer that is to take 70000 bytes, and a list of -3 offers. -/
theorem negotiate_keeps_limits_at :
    let announce (numbers : List Nat) : Source :=
      [.data (numbers.flatMap (Bytes.ofNat numberLength)), .data [1, 2, 3]]
    (negotiate listener (announce [1, 70000]) .endless).result =
        .error (.fieldTooLarge 70000 65536) ∧
      (negotiate listener (announce [1, 70000]) .endless).source.bytes = [1, 2, 3] ∧
      (negotiate listener (announce [2 ^ 32 - 3]) .endless).result =
        .error (.negativeLength (-3)) ∧
      (negotiate listener (announce [2 ^ 32 - 3]) .endless).source.bytes = [1, 2, 3] := by
  intro announce
  have hlarge : (negotiate listener (announce [1, 70000]) .endless).source.bytes = [1, 2, 3] := by
    decide +kernel
  have hnegative :
      (negotiate listener (announce [2 ^ 32 - 3]) .endless).source.bytes = [1, 2, 3] := by
    decide +kernel
  obtain ⟨heard, hheard, hlimits, -⟩ := negotiate_keeps_limits
    (.inl (Eq.refl (negotiate listener (announce [1, 70000]) .endless)))
  obtain ⟨heard', hheard', hlimits', -⟩ := negotiate_keeps_limits
    (.inl (Eq.refl (negotiate listener (announce [2 ^ 32 - 3]) .endless)))
  rw [hlarge] at hheard
  rw [hnegative] at hheard'
  obtain rfl : [0, 0, 0, 1, 0, 1, 17, 112] = heard := List.append_cancel_right hheard
  obtain rfl : [255, 255, 255, 253] = heard' := List.append_cancel_right hheard'
  have hfield : ⟨70000, 65536, []⟩ ∈
      Announcement.ofHeard listener.config.maxField [0, 0, 0, 1, 0, 1, 17, 112] := by
    decide +kernel
  have hcount : ⟨-3, 256, []⟩ ∈
      Announcement.ofHeard listener.config.maxField [255, 255, 255, 253] := by
    decide +kernel
  exact ⟨((hlimits _ hfield).2 (by decide)).1, hlarge, ((hlimits' _ hcount).1 (by decide)).1,
    hnegative⟩

end CipherLink.Handshake
