import Mand.Net.Framing

/-! # Length fields

`readEvent` takes the length field of a header for the size of the packet, for the number of bytes to read
and, less the header, for the size of the group. On a field that is too small the group is larger than the
packet; on the field zero nothing is read at all. -/
namespace Mand.Net
open Mand.Msg Mand.Bytes
set_option autoImplicit false

/-- Every header that has come counts itself in its length field. -/
inductive Lengths : List UInt8 → Prop
  | short {bytes : List UInt8} : bytes.length < sizeofDmPacket → Lengths bytes
  | packet {bytes : List UInt8} : sizeofDmPacket ≤ bytes.length → sizeofDmPacket ≤ dmPacketLength bytes →
    Lengths (bytes.drop (dmPacketLength bytes)) → Lengths bytes

/-- The group of a packet begins behind the header, has the size that the length field leaves for it, and
lies inside the bytes that were read. -/
def GroupInside (packet : List UInt8) : Prop :=
  ∃ grp, dmInitPacket packet = some grp ∧ grp.data = packet.drop sizeofDmPacket ∧ grp.pos = 0 ∧
    grp.size + sizeofDmPacket = dmPacketLength packet ∧ grp.size ≤ grp.data.length

/-- A callback that keeps the packet. -/
def handed (log : List (List UInt8)) (packet : List UInt8) : List (List UInt8) := log ++ [packet]

/-! ## Headers -/

theorem dmPacketLength_append {l : List UInt8} (l' : List UInt8) (h : 4 ≤ l.length) :
    dmPacketLength (l ++ l') = dmPacketLength l := by
  rw [dmPacketLength, dmPacketLength, List.drop_append_of_le_length (by omega),
    List.take_append_of_le_length]
  rw [List.length_drop]
  omega

theorem dmPacketLength_take {l : List UInt8} {n : ℕ} (h : 4 ≤ n) (hn : n ≤ l.length) :
    dmPacketLength (l.take n) = dmPacketLength l := by
  have hlen : 4 ≤ (l.take n).length := by
    rw [List.length_take]
    omega
  have happ := dmPacketLength_append (l.drop n) hlen
  rw [List.take_append_drop] at happ
  exact happ.symm

theorem dmPacketLength_lt (l : List UInt8) : dmPacketLength l < 2 ^ 64 := by
  have h := ofBe_lt ((l.drop 1).take 3)
  have hlen : ((l.drop 1).take 3).length ≤ 3 := List.length_take_le 3 _
  have hpow : 256 ^ ((l.drop 1).take 3).length ≤ 256 ^ 3 := Nat.pow_le_pow_right (by decide) hlen
  have h3 : 256 ^ 3 < 2 ^ 64 := by decide
  rw [dmPacketLength]
  omega

theorem dmInitPacket_size {packet : List UInt8} (h : 4 ≤ packet.length) :
    dmInitPacket packet = some (dmInitAvpgrp (packet.drop sizeofDmPacket)
      (sizeT (dmPacketLength packet + 2 ^ 64 - sizeofDmPacket))) := by
  rw [dmInitPacket, Msg.dmPacketLength, peek_some packet 1 3 (by omega)]
  rfl

/-- The size wraps when the length field is less than the header. -/
theorem groupInside_iff {packet : List UInt8} (h : dmPacketLength packet = packet.length)
    (h4 : 4 ≤ packet.length) : GroupInside packet ↔ sizeofDmPacket ≤ packet.length := by
  have hlt := dmPacketLength_lt packet
  have h20 : sizeofDmPacket = 20 := rfl
  rw [GroupInside, dmInitPacket_size h4]
  constructor
  · rintro ⟨grp, hg, -, -, hsize, -⟩
    omega
  · intro hle
    have hmod : sizeT (dmPacketLength packet + 2 ^ 64 - sizeofDmPacket) = packet.length - 20 := by
      rw [sizeT]
      omega
    refine ⟨_, rfl, rfl, rfl, ?_, ?_⟩
    · show sizeT _ + _ = _
      omega
    · show sizeT _ ≤ (packet.drop sizeofDmPacket).length
      rw [hmod, List.length_drop]
      omega

theorem lengths_iff {bytes : List UInt8} (h : sizeofDmPacket ≤ bytes.length) :
    Lengths bytes ↔ sizeofDmPacket ≤ dmPacketLength bytes ∧ Lengths (bytes.drop (dmPacketLength bytes)) := by
  constructor
  · intro hb
    cases hb with
    | short hlt => omega
    | packet _ hle hrest => exact ⟨hle, hrest⟩
  · intro hb
    exact .packet h hb.1 hb.2

/-! ## The reader -/

/-- The packets that were handed on have their groups inside, and what is read of the next one and the
rest of the stream have their lengths. -/
structure Sized (r : Reader (List (List UInt8))) : Prop where
  log : ∀ packet ∈ r.state, GroupInside packet
  lengths : Lengths (r.packet ++ r.stream.all)
  boundary : r.left = 0 → r.packet = []
  inside : r.left ≠ 0 → sizeofDmPacket ≤ (r.packet ++ r.stream.all).length ∧
    r.packet.length + r.left = dmPacketLength (r.packet ++ r.stream.all)

theorem Sized.arrive {r : Reader (List (List UInt8))} (h : Sized r) (k : ℕ) :
    Sized { r with stream := r.stream.arrive k } := by
  have hall := Stream.arrive_all r.stream k
  refine ⟨h.log, ?_, h.boundary, ?_⟩
  · show Lengths (r.packet ++ (r.stream.arrive k).all)
    rw [hall]
    exact h.lengths
  · show r.left ≠ 0 → _ ≤ (r.packet ++ (r.stream.arrive k).all).length ∧
      _ = dmPacketLength (r.packet ++ (r.stream.arrive k).all)
    rw [hall]
    exact h.inside

theorem Sized.header {r : Reader (List (List UInt8))} (h : Sized r) {k : ℕ} (h0 : r.left = 0)
    (hle : sizeofDmPacket ≤ (r.stream.arrive k).ready.length) :
    dmPacketLength (r.stream.arrive k).ready ≠ 0 ∧
      Sized { r with
        stream := r.stream.arrive k
        packet := []
        left := dmPacketLength (r.stream.arrive k).ready } := by
  have h20 : sizeofDmPacket = 20 := rfl
  have hl := h.lengths
  have hfield : dmPacketLength (r.stream.arrive k).all = dmPacketLength (r.stream.arrive k).ready :=
    dmPacketLength_append _ (by omega)
  have hlong : sizeofDmPacket ≤ (r.stream.arrive k).all.length := by
    rw [Stream.all, List.length_append]
    omega
  rw [h.boundary h0, List.nil_append, ← Stream.arrive_all r.stream k] at hl
  have hpos := ((lengths_iff hlong).1 hl).1
  refine ⟨by omega, h.log, hl, fun _ => rfl, fun _ => ⟨hlong, ?_⟩⟩
  show 0 + dmPacketLength (r.stream.arrive k).ready = dmPacketLength (r.stream.arrive k).all
  omega

/-- Bytes go from the stream to the packet. -/
theorem Sized.read {r : Reader (List (List UInt8))} (h : Sized r) {k len : ℕ} (hle : len ≤ r.left)
    (hle' : len ≤ (r.stream.arrive k).ready.length) (h0 : r.left ≠ 0) :
    if r.left - len = 0 then
      ∃ r', handOn handed handed { r with
        stream := (r.stream.arrive k).consume len
        packet := r.packet ++ (r.stream.arrive k).ready.take len
        left := r.left - len } = some r' ∧ Sized r'
    else Sized { r with
      stream := (r.stream.arrive k).consume len
      packet := r.packet ++ (r.stream.arrive k).ready.take len
      left := r.left - len } := by
  obtain ⟨hlong, hleft⟩ := h.inside h0
  have hsum : (r.packet ++ (r.stream.arrive k).ready.take len) ++ ((r.stream.arrive k).consume len).all =
      r.packet ++ r.stream.all := by
    rw [List.append_assoc, ← Stream.take_all hle', Stream.arrive_all]
  have htake : (r.packet ++ (r.stream.arrive k).ready.take len).length = r.packet.length + len := by
    rw [List.length_append, List.length_take]
    omega
  have hl := h.lengths
  rw [← hsum] at hl hlong hleft
  obtain ⟨hfield, hrest⟩ := (lengths_iff hlong).1 hl
  generalize r.packet ++ (r.stream.arrive k).ready.take len = packet at *
  by_cases hmore : r.left - len = 0
  · -- the packet is complete
    rw [if_pos hmore]
    have hlen : packet.length = dmPacketLength (packet ++ ((r.stream.arrive k).consume len).all) := by
      omega
    have h20 : sizeofDmPacket = 20 := rfl
    have happ := dmPacketLength_append ((r.stream.arrive k).consume len).all (l := packet) (by omega)
    rw [← hlen, List.drop_left] at hrest
    have hin : GroupInside packet := (groupInside_iff (by omega) (by omega)).2 (by omega)
    refine ⟨{ r with
      stream := (r.stream.arrive k).consume len
      packet := []
      left := 0
      state := r.state ++ [packet] }, ?_, ?_, hrest, fun _ => rfl, fun h => absurd rfl h⟩
    · have h4 : 4 < packet.length := by omega
      show (packet[4]?).bind _ = _
      rw [List.getElem?_eq_getElem h4, Option.bind_some, ite_self, hmore]
      rfl
    · intro p hp
      rcases List.mem_append.1 hp with hp | hp
      · exact h.log p hp
      · rw [List.mem_singleton.1 hp]
        exact hin
  · rw [if_neg hmore]
    refine ⟨h.log, hl, fun h => absurd h hmore, fun _ => ⟨hlong, ?_⟩⟩
    show packet.length + (r.left - len) =
      dmPacketLength (packet ++ ((r.stream.arrive k).consume len).all)
    omega

theorem readEvents_sized (calls : List (List Recv)) {r : Reader (List (List UInt8))} (h : Sized r) :
    ∃ r', readEvents handed handed calls r = some r' ∧ Sized r' := by
  induction calls generalizing r with
  | nil => exact ⟨r, rfl, h⟩
  | cons rs calls ih =>
    have hevent : ∃ r', readEvent handed handed rs r = some r' ∧ Sized r' :=
      readLoop_rule handed handed (P := Sized) (Q := Sized)
        (fun _ r h => ⟨h.log, h.lengths, h.boundary, h.inside⟩)
        (fun r k h _ _ => h.arrive k) (fun r k h _ _ => h.arrive k)
        (fun r k h h0 hle => h.header h0 hle) (fun r k len h hle hle' h0 => h.read hle hle' h0) h
        (by split <;> omega)
    obtain ⟨r₁, hr₁, h₁⟩ := hevent
    obtain ⟨r', hr', h'⟩ := ih h₁
    refine ⟨r', ?_, h'⟩
    rw [readEvents, hr₁]
    exact hr'

/-! ## A length that is too small -/

/-- A packet that has come is read at once. -/
theorem readLoop_whole (n : ℕ) {r : Reader (List (List UInt8))} (hleft : r.left = 0)
    (hlater : r.stream.later = []) (hlong : sizeofDmPacket ≤ r.stream.ready.length)
    (hpos : dmPacketLength r.stream.ready ≠ 0)
    (hle : dmPacketLength r.stream.ready ≤ r.stream.ready.length) :
    readLoop handed handed (n + 2) [] r =
      (handOn handed handed { r with
        stream := r.stream.consume (dmPacketLength r.stream.ready)
        packet := r.stream.ready.take (dmPacketLength r.stream.ready)
        left := 0 }).bind (readLoop handed handed n []) := by
  have harr : r.stream.arrive 0 = r.stream := by
    rw [Stream.arrive, List.take_zero, List.flatten_nil, List.append_nil, List.drop_zero]
  have hall := congrArg List.length (Stream.all_of_later hlater)
  have hnil : r.stream.ready ≠ [] := by
    intro h
    rw [h] at hle
    have hle : dmPacketLength [] ≤ 0 := hle
    rw [h] at hpos
    omega
  have hmin : min (min (r.stream.all.length + 1) (dmPacketLength r.stream.ready)) r.stream.ready.length =
      dmPacketLength r.stream.ready := by omega
  rw [readLoop]
  simp only [List.headD_nil, List.tail_nil, harr, hleft, if_true]
  rw [if_neg (by omega), if_neg hpos, readLoop]
  simp only [List.headD_nil, List.tail_nil, harr, if_neg hpos, if_neg hnil, hmin, Nat.sub_self, if_true,
    List.nil_append]
  rfl

/-- When all has come, a header that does not count itself is found. -/
theorem readLoop_wrong (n : ℕ) {r r' : Reader (List (List UInt8))} (hleft : r.left = 0)
    (hlater : r.stream.later = []) (h : ¬ Lengths r.stream.ready)
    (hr' : readLoop handed handed n [] r = some r') : ∃ packet ∈ r'.state, ¬ GroupInside packet := by
  induction n using Nat.strong_induction_on generalizing r with
  | _ n ih =>
    have h20 : sizeofDmPacket = 20 := rfl
    have hlong : sizeofDmPacket ≤ r.stream.ready.length := by
      by_contra hlt
      exact h (.short (by omega))
    have harr : r.stream.arrive 0 = r.stream := by
      rw [Stream.arrive, List.take_zero, List.flatten_nil, List.append_nil, List.drop_zero]
    by_cases hzero : dmPacketLength r.stream.ready = 0
    · cases n with
      | zero => cases hr'
      | succ n =>
        rw [readLoop] at hr'
        simp only [List.headD_nil, List.tail_nil, harr, hleft, if_true] at hr'
        rw [if_neg (by omega), if_pos hzero] at hr'
        cases hr'
    · -- a packet longer than what has come would be right
      have hle : dmPacketLength r.stream.ready ≤ r.stream.ready.length := by
        by_contra hgt
        apply h
        refine .packet hlong (by omega) (.short ?_)
        rw [List.length_drop]
        omega
      obtain _ | _ | n := n
      · cases hr'
      · rw [readLoop] at hr'
        simp only [List.headD_nil, List.tail_nil, harr, hleft, if_true] at hr'
        rw [if_neg (by omega), if_neg hzero] at hr'
        cases hr'
      · rw [readLoop_whole n hleft hlater hlong hzero hle, Option.bind_eq_some_iff] at hr'
        obtain ⟨r₁, hr₁, hr'⟩ := hr'
        rw [handOn, Option.bind_eq_bind, Option.bind_eq_some_iff] at hr₁
        obtain ⟨flags, hflags, hr₁⟩ := hr₁
        rw [ite_self] at hr₁
        cases hr₁
        have htake : (r.stream.ready.take (dmPacketLength r.stream.ready)).length =
            dmPacketLength r.stream.ready := List.length_take_of_le hle
        have h4 : 4 < dmPacketLength r.stream.ready := by
          have h4 := (List.getElem?_eq_some_iff.1 hflags).1
          have h4 : 4 < (r.stream.ready.take (dmPacketLength r.stream.ready)).length := h4
          omega
        by_cases hsmall : dmPacketLength r.stream.ready < sizeofDmPacket
        · refine ⟨r.stream.ready.take (dmPacketLength r.stream.ready), ?_, ?_⟩
          · apply readLoop_keeps handed handed (P := fun log => _ ∈ log) _ _ hr'
            · exact List.mem_append_right _ List.mem_cons_self
            · intro s p hs
              exact List.mem_append_left _ hs
            · intro s p hs
              exact List.mem_append_left _ hs
          · rw [groupInside_iff _ (by omega)]
            · omega
            · rw [dmPacketLength_take (by omega) hle, htake]
        · refine ih n (by omega) ?_ ?_ ?_ hr'
          · rfl
          · exact hlater
          · intro hrest
            exact h (.packet hlong (by omega) hrest)

theorem readLoop_arrive (n cap : ℕ) {r : Reader (List (List UInt8))} (hleft : r.left = 0) (k : ℕ) :
    readLoop handed handed (n + 1) [.ready k cap] r =
      readLoop handed handed (n + 1) [] { r with stream := r.stream.arrive k } := by
  have harr : (r.stream.arrive k).arrive 0 = r.stream.arrive k := by
    rw [Stream.arrive, List.take_zero, List.flatten_nil, List.append_nil, List.drop_zero]
  rw [readLoop, readLoop]
  simp only [List.headD_cons, List.headD_nil, List.tail_cons, List.tail_nil, harr, hleft, if_true]

/-! ## The whole stream -/

/-- However the bytes come, each `readEvent` returns after no more turns than `readEvent` allows it, and
the groups of the packets that were handed on have the sizes of their length fields and lie inside what was
read, if and only if every header that comes counts itself in its length field. -/
theorem reads_iff (bytes : List UInt8) :
    (∀ (chunks : List (List UInt8)) (calls : List (List Recv)), chunks.flatten = bytes →
      ∃ r, readEvents handed handed calls (Reader.start chunks []) = some r ∧
        ∀ packet ∈ r.state, GroupInside packet) ↔ Lengths bytes := by
  constructor
  · intro hall
    by_contra h
    -- everything comes at once
    obtain ⟨r, hr, hin⟩ := hall [bytes] [[.ready 1 0]] (by simp)
    rw [readEvents, Option.bind_eq_bind, Option.bind_eq_some_iff] at hr
    obtain ⟨r', hr', hr⟩ := hr
    cases hr
    rw [readEvent, readLoop_arrive _ _ rfl] at hr'
    obtain ⟨packet, hp, hbad⟩ := readLoop_wrong _ rfl rfl (by
      show ¬ Lengths ([] ++ ([bytes].take 1).flatten)
      simpa using h) hr'
    exact hbad (hin packet hp)
  · intro h chunks calls hcut
    have hsized : Sized (Reader.start chunks []) := by
      refine ⟨fun p hp => absurd hp List.not_mem_nil, ?_, fun _ => rfl, fun h => absurd rfl h⟩
      show Lengths ([] ++ ([] ++ chunks.flatten))
      rw [List.nil_append, List.nil_append, hcut]
      exact h
    obtain ⟨r, hr, hr'⟩ := readEvents_sized calls hsized
    exact ⟨r, hr, hr'.log⟩

/-- A length field of eight, and one of zero. -/
theorem length_wraps :
    (∃ r grp, readEvents handed handed [[.ready 1 19]]
        (Reader.start [[1, 0, 0, 8, 128, 0, 0, 7, 0, 0, 0, 0, 0, 0, 0, 6, 0, 0, 0, 6]] []) = some r ∧
      r.state = [[1, 0, 0, 8, 128, 0, 0, 7]] ∧
      dmInitPacket [1, 0, 0, 8, 128, 0, 0, 7] = some grp ∧ grp.size = 2 ^ 64 - 12 ∧ grp.data = []) ∧
    readEvents handed handed [[.ready 1 19]] (Reader.start [List.replicate 20 0] []) = none :=
  ⟨⟨_, _, rfl, rfl, rfl, rfl, rfl⟩, rfl⟩

end Mand.Net
