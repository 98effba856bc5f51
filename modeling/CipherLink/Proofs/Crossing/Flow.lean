import CipherLink.Proofs.Crossing.Calls
import CipherLink.Proofs.Frame.Reading

/-!
# What is on its way in a crossing

The writer is given to one call at a time, and a call that has it writes the whole of
its frame. So the frames lie on the wire one behind the other in the order in which
the writer was given away, in one chain, and the reader at the other end is always
the peer of a moment of that chain. What it has heard and not yet heard are the two
parts of one list.
-/

namespace CipherLink

/-- Whether a session reads what another one writes, over a link that loses nothing
and on which nothing is on its way. -/
structure Session.Meets (s r : Session) : Prop where
  isReading : r.isReading = true
  reader : ∃ source : Source, source.Delivers [] .live ∧ r.channel.reader =
    .ofPeer s.channel.writer.encryptor s.channel.writer.block r.channel.reader.limit
      s.channel.writer.codec source
  inverts : s.channel.writer.codec.Inverts
  positive : 0 < s.channel.writer.block
  whole : Cipher.blockLength ∣ s.channel.writer.block
  takesAll : s.channel.writer.sink.room = none
  flushes : s.channel.writer.sink.flushFault = none

/-- Whether the limit of the receiver lets through what that of the sender does. -/
def Session.Accepts (s r : Session) (order : FrameOrder) : Prop :=
  ∀ payload, order.payloadIn s.channel.writer.codec = .ok payload →
    payload.length ≤ s.channel.writer.limit → payload.length ≤ r.channel.reader.limit

theorem Session.meets_of_links {a : SymmetricAlgorithm} {package : KeyPackage} {l r : Link}
    (hencryptor : a.encryptor package = .ok l.encryptor)
    (hdecryptor : a.decryptor package = .ok r.decryptor) (hblock : l.block = r.block)
    (hpos : 0 < l.block) (hwhole : Cipher.blockLength ∣ l.block) (id id' : ClientId)
    (limit limit' : Nat) (source : Source) :
    (Session.start id (.ofLink l limit source)).Meets
      (Session.start id' (.ofLink r limit' .live)) where
  isReading := rfl
  reader := by
    refine ⟨.live, Source.delivers_live, ?_⟩
    simp only [Session.start, Channel.ofLink, FrameReader.ofPeer,
      SymmetricAlgorithm.peer_eq hencryptor hdecryptor, hblock]
  inverts := Codec.records_inverts
  positive := hpos
  whole := hwhole
  takesAll := rfl
  flushes := rfl

def Session.hearing (r : Session) (reader : FrameReader) (size : Nat) : Session :=
  { r with channel := { r.channel with reader }, received := r.received + UInt64.ofNat size }

namespace Session

variable {r : Session}

theorem read_waiting (h : r.channel.reader.readNext = .waiting) : r.read = (.waiting, r) := by
  rw [read, h]
  split <;> rfl

theorem read_message (hreading : r.isReading = true) {message : Message} {size : Nat}
    {next : FrameReader} (h : r.channel.reader.readNext = .outcome (.message message size) next) :
    r.read = (.message message ⟨r.id, size⟩, r.hearing next size) := by
  simp only [read, hreading, Bool.not_true, Bool.false_eq_true, if_false, h, hearing]

theorem read_empty (hreading : r.isReading = true) {size : Nat} {next : FrameReader}
    (h : r.channel.reader.readNext = .outcome (.empty size) next) :
    r.read = (.nothing, r.hearing next size) := by
  simp only [read, hreading, Bool.not_true, Bool.false_eq_true, if_false, h, hearing]

end Session

def Grant.publication (id : ClientId) (g : Grant) : Option Publication :=
  match g.parcel.order with
  | .message m => some ⟨m.key, m, ⟨id, g.parcel.frame.length⟩⟩
  | .empty => none

namespace Crossing

variable {s r : Session} {c : Crossing}

/-- The frames that were granted are on their way from one end to the other: the
receiver has heard the first of them, and the bytes of the others have arrived, are
underway or have still to be written. -/
structure Flow (s r : Session) (c : Crossing) (heard unheard : List Grant) : Prop where
  grants : c.grants = heard ++ unheard
  published : c.published = heard.filterMap (Grant.publication r.id)
  packed : s.channel.writer.encryptor.PacksAll s.channel.writer.block s.channel.writer.limit
    s.channel.writer.codec c.parcels c.writer.encryptor
  written : ∃ written, c.writer = s.channel.writer.afterFrame written c.writer.encryptor ∧
    written ++ c.left = Parcel.wire c.parcels
  carried : c.carried ≤ c.writer.sink.taken.length
  hearing : ∃ middle source arrived,
    middle.PacksAll s.channel.writer.block r.channel.reader.limit s.channel.writer.codec
      (unheard.map Grant.parcel) c.writer.encryptor ∧
    source.Delivers arrived .live ∧
    arrived ++ (c.underway ++ c.left) = Parcel.wire (unheard.map Grant.parcel) ∧
    c.receiver = r.hearing (.ofPeer middle s.channel.writer.block r.channel.reader.limit
      s.channel.writer.codec source) (Parcel.wire (heard.map Grant.parcel)).length

theorem flow_between (hmeets : s.Meets r) (orders : List (List (FrameOrder × Noise))) :
    Flow s r (between s r orders) [] [] := by
  obtain ⟨source, hsource, hreader⟩ := hmeets.reader
  refine ⟨rfl, rfl, .nil _, ⟨[], ?_, rfl⟩, Nat.le_refl _, _, source, [], .nil _, hsource, ?_, ?_⟩
  · simp [between, writer, FrameWriter.afterFrame]
  · simp [between, underway, writer, left, Parcel.wire]
  · change r = r.hearing (.ofPeer s.channel.writer.encryptor _ _ _ _) 0
    rw [← hreader]
    simp [Session.hearing]

variable {heard unheard : List Grant}

theorem Flow.setCaller (h : Flow s r c heard unheard) (i : Nat) (caller : Caller) :
    Flow s r (c.setCaller i caller) heard unheard :=
  ⟨h.grants, h.published, h.packed, h.written, h.carried, h.hearing⟩

theorem Flow.grant {order : FrameOrder} {noise : Noise} {frame : Bytes} {encryptor : Encryptor}
    (h : Flow s r c heard unheard) (haccepts : s.Accepts r order) (hlock : c.lock = none)
    (hpack : c.writer.pack order noise = some (.ok (frame, encryptor))) (i : Nat)
    (caller : Caller) :
    Flow s r (c.hold i caller ⟨order, frame⟩ encryptor) heard
      (unheard ++ [⟨i, ⟨order, frame⟩⟩]) := by
  obtain ⟨written, hsame, hwire⟩ := h.written
  obtain ⟨middle, source, arrived, hmiddle, hsource, harrived, hhearing⟩ := h.hearing
  have hnone : c.left = [] := by rw [left, hlock]
  rw [hnone, List.append_nil] at hwire harrived
  have hcomes := (c.writer.comes_pack order noise).1
  rw [hpack, hsame] at hcomes
  cases hcomes with
  | @packed payload _ _ hpayload _ hlimit hencloses =>
    -- The lock was free, so the new frame is next in the chain and behind all other bytes.
    refine ⟨?_, h.published, ?_, ⟨written, ?_, ?_⟩, h.carried, middle, source, arrived, ?_, hsource,
      ?_, hhearing⟩
    · rw [hold, h.grants, List.append_assoc]
    · rw [parcels, hold, List.map_append]
      exact h.packed.snoc ⟨payload, hpayload, hlimit, hencloses⟩
    · change { c.writer with encryptor } = _
      rw [hsame]
      rfl
    · rw [hwire]
      simp [left, Parcel.wire, parcels, hold]
    · rw [List.map_append]
      exact hmiddle.snoc ⟨payload, hpayload, haccepts payload hpayload hlimit, hencloses⟩
    · change arrived ++ (c.underway ++ frame) = _
      rw [← List.append_assoc, harrived]
      simp [Parcel.wire]

theorem Flow.write (h : Flow s r c heard unheard) {holder : Holder} (hlock : c.lock = some holder)
    (size : Nat) :
    Flow s r { c.setWriter (c.writer.afterFrame (holder.left.take size) c.writer.encryptor) with
        lock := some ⟨holder.caller, holder.left.drop size⟩ } heard unheard := by
  obtain ⟨written, hsame, hwire⟩ := h.written
  obtain ⟨middle, source, arrived, hmiddle, hsource, harrived, hhearing⟩ := h.hearing
  have hleft : c.left = holder.left := by rw [left, hlock]
  have hcarried := h.carried
  refine ⟨h.grants, h.published, h.packed, ⟨written ++ holder.left.take size, ?_, ?_⟩, ?_,
    middle, source, arrived, hmiddle, hsource, ?_, hhearing⟩
  · rw [writer, setWriter, hsame]
    simp [FrameWriter.afterFrame]
  · rw [hleft] at hwire
    rw [left, List.append_assoc, List.take_append_drop]
    exact hwire
  · simp only [writer, setWriter, FrameWriter.afterFrame, List.length_append] at hcarried ⊢
    omega
  · rw [hleft] at harrived
    rw [← harrived, left, underway, underway]
    simp only [writer, setWriter, FrameWriter.afterFrame] at hcarried ⊢
    rw [List.drop_append_of_le_length hcarried, List.append_assoc, List.take_append_drop]

theorem underway_carry (c : Crossing) (size : Nat) :
    (c.carry size).underway = c.underway.drop size := by
  have hdrop : c.underway.drop (c.underway.take size).length = c.underway.drop size := by
    simp
  change c.writer.sink.taken.drop (c.carried + (c.underway.take size).length) = _
  rw [← List.drop_drop]
  exact hdrop

theorem Flow.carry (h : Flow s r c heard unheard) (size : Nat) :
    Flow s r (c.carry size) heard unheard := by
  obtain ⟨middle, source, arrived, hmiddle, hsource, harrived, hhearing⟩ := h.hearing
  have hcarried := h.carried
  have htake : (c.underway.take size).length ≤ c.underway.length := List.length_take_le' ..
  refine ⟨h.grants, h.published, h.packed, h.written, ?_, middle,
    source.arrive (c.underway.take size), arrived ++ c.underway.take size, hmiddle,
    hsource.arrive _, ?_, ?_⟩
  · simp only [Crossing.carry, underway, writer, List.length_drop] at hcarried htake ⊢
    omega
  · rw [underway_carry]
    change _ ++ (_ ++ c.left) = _
    rw [List.append_assoc, ← List.append_assoc _ _ c.left, List.take_append_drop, harrived]
  · rw [Crossing.carry, hhearing]
    rfl

theorem Flow.readNext (hmeets : s.Meets r) (h : Flow s r c heard unheard) :
    (c.receiver.channel.reader.readNext = .waiting ∧
      (c.underway = [] → c.left = [] → unheard = [])) ∨
    ∃ g others reader, unheard = g :: others ∧
      c.receiver.channel.reader.readNext = .outcome g.parcel.outcome reader ∧
      Flow s r { c with
        receiver := c.receiver.hearing reader g.parcel.frame.length
        published := c.published ++ (g.publication r.id).toList } (heard ++ [g]) others := by
  obtain ⟨middle, source, arrived, hmiddle, hsource, harrived, hhearing⟩ := h.hearing
  have hreader : c.receiver.channel.reader = .ofPeer middle s.channel.writer.block
      r.channel.reader.limit s.channel.writer.codec source := by rw [hhearing]; rfl
  rw [hreader]
  cases unheard with
  | nil =>
    left
    obtain ⟨rfl, -⟩ := List.append_eq_nil_iff.mp harrived
    exact ⟨FrameReader.readNext_silent rfl hmeets.positive hsource, fun _ _ => rfl⟩
  | cons g others =>
    cases hmiddle with
    | @cons _ next _ _ _ head tail =>
      change _ = g.parcel.frame ++ Parcel.wire (others.map Grant.parcel) at harrived
      by_cases hshort : arrived.length < g.parcel.frame.length
      · left
        refine ⟨FrameReader.readNext_parcel_waits head hmeets.whole ?_ hshort hsource, ?_⟩
        · exact List.prefix_of_prefix_length_le (harrived ▸ List.prefix_append _ _)
            (List.prefix_append _ _) (Nat.le_of_lt hshort)
        · intro hunderway hleft
          rw [hunderway, hleft] at harrived
          have hlength := congrArg List.length harrived
          simp only [List.append_nil, List.length_append] at hlength
          omega
      · right
        obtain ⟨more, rfl⟩ : g.parcel.frame <+: arrived :=
          List.prefix_of_prefix_length_le (List.prefix_append _ _)
            (harrived ▸ List.prefix_append _ _) (Nat.le_of_not_lt hshort)
        rw [List.append_assoc, List.append_cancel_left_eq] at harrived
        obtain ⟨rest, hrest, hread⟩ := FrameReader.readNext_parcel head hmeets.inverts hmeets.whole
          hsource
        refine ⟨g, others, _, rfl, hread, ?_, ?_, h.packed, h.written, h.carried, next, rest, more,
          tail, hrest, harrived, ?_⟩
        · rw [h.grants]
          simp
        · rw [h.published]
          cases hpublication : g.publication r.id <;> simp [hpublication]
        · rw [hhearing]
          simp [Session.hearing, Parcel.wire, UInt64.add_assoc]

theorem Flow.read (hmeets : s.Meets r) (h : Flow s r c heard unheard) :
    (c.receiver.read.1 = .waiting ∧ c.read = c ∧
      (c.underway = [] → c.left = [] → unheard = [])) ∨
    (c.receiver.read.1 ≠ .waiting ∧
      ∃ g others, unheard = g :: others ∧ Flow s r c.read (heard ++ [g]) others) := by
  obtain ⟨_, _, _, -, -, -, hhearing⟩ := h.hearing
  have hreading : c.receiver.isReading = true := by
    rw [hhearing]
    exact hmeets.isReading
  have hid : c.receiver.id = r.id := by
    rw [hhearing]
    rfl
  obtain ⟨hwaiting, hdone⟩ | ⟨g, others, reader, rfl, hread, hflow⟩ := h.readNext hmeets
  · left
    have hread := Session.read_waiting hwaiting
    refine ⟨by rw [hread], ?_, hdone⟩
    rw [Crossing.read, hread]
  · right
    obtain ⟨i, order, frame⟩ := g
    cases order with
    | message m =>
      rw [Crossing.read, Session.read_message hreading hread, hid]
      exact ⟨nofun, _, others, rfl, hflow⟩
    | empty =>
      rw [Crossing.read, Session.read_empty hreading hread]
      exact ⟨nofun, _, others, rfl, by simpa [Grant.publication] using hflow⟩

theorem read_eq (c : Crossing) :
    c.read = { c with receiver := c.receiver.read.2, published := c.read.published } := by
  rw [Crossing.read]
  split <;> next h => rw [h]

theorem Flow.sink_takes (hmeets : s.Meets r) (h : Flow s r c heard unheard) (bs : Bytes) :
    c.writer.sink.write bs = ({ c.writer.sink with taken := c.writer.sink.taken ++ bs }, none) ∧
      c.writer.sink.flushFault = none := by
  obtain ⟨written, hsame, -⟩ := h.written
  have hroom : c.writer.sink.room = none := by
    rw [hsame]
    exact hmeets.takesAll
  refine ⟨by simp [Sink.write, hroom], ?_⟩
  rw [hsame]
  exact hmeets.flushes

end Crossing

end CipherLink
