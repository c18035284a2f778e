import Elegram.Client.Reassembly

/-!
# Reading inside the buffer

`readMessage` resizes the buffer to the announced length, narrowed to an `int`, and then asks the
socket for as many bytes as were announced. `eachEvent_insideBuffer_iff` says when the two lengths
are the same in every event of a run: a length from `2 ^ 31` on must not be met by as many bytes,
and after one from `2 ^ 63` on, which has become negative, no event must come at all. Everything
else that an event does is defined, so a run breaks off only at an event that leaves the buffer
(`isSome_run_iff_insideBuffer`).
-/

namespace Elegram

open Transition

namespace Session

section Slot

variable (pb : Protobuf)

/-- The session in which `onReadyRead` calls `readMessage(m_messageSize)`, if it does. -/
def messageCall (s : Session) : Option Session :=
  if s.bytesReaded < PREFIX_SIZE ∧ s.sock.bytesAvailable ≥ PREFIX_SIZE then do
    let (length, s) ← readPrefix pb { s with bytesReaded := 0 }
    if length ≠ PARSE_ERROR ∧ s.sock.bytesAvailable = length then
      some { s with messageSize := length }
    else none
  else if s.bytesReaded = PREFIX_SIZE ∧ s.sock.bytesAvailable ≥ s.messageSize then some s
  else none

/-- A call `readMessage(mesgSize)` that stays inside the buffer: the buffer is resized to just this
size, and `ParseFromArray` is told the number of bytes that were read into it. -/
structure ReadsWithin (mesgSize : ℤ) (s : Session) : Prop where
  nonneg : 0 ≤ mesgSize
  room : ∃ buffer, resize s.buffer (toInt mesgSize) = some buffer ∧ (buffer.length : ℤ) = mesgSize ∧
    ∃ readed buffer' sock, s.sock.read buffer mesgSize = some (readed, buffer', sock) ∧
      0 ≤ readed ∧ toInt readed = readed

/-- If the slot calls `readMessage`, the call stays inside the buffer. -/
def InsideBuffer (s : Session) : Prop :=
  ∀ t, s.messageCall pb = some t → t.ReadsWithin t.messageSize

/-- The slot takes a prefix off the socket that announces `n`. -/
def Announces (s : Session) (n : UInt64) : Prop :=
  s.bytesReaded < PREFIX_SIZE ∧ PREFIX_SIZE ≤ s.sock.incoming.length ∧
    pb.parsePrefix (s.sock.incoming.take PREFIX_SIZE) = some n

/-- The lengths that the slot can meet without harm. -/
structure Harmless (s : Session) : Prop where
  /-- A message that is there with its prefix, and nothing else. -/
  together : ∀ n, s.Announces pb n → n.toNat < 2 ^ 63 →
    s.sock.incoming.length = PREFIX_SIZE + n.toNat → n.toNat < 2 ^ 31
  /-- The length that a prefix has left behind. -/
  nonneg : s.bytesReaded = PREFIX_SIZE → 0 ≤ s.messageSize
  later : s.bytesReaded = PREFIX_SIZE → s.messageSize ≤ s.sock.incoming.length →
    s.messageSize < 2 ^ 31

end Slot

variable {pb : Protobuf} {s t : Session}

theorem readsWithin_iff {m : ℤ} : s.ReadsWithin m ↔ 0 ≤ m ∧ m < 2 ^ 31 := by
  constructor
  · rintro ⟨hm, buffer, hresize, hlen, -⟩
    rw [resize] at hresize
    split_ifs at hresize with h0
    cases hresize
    rw [List.takeD_length] at hlen
    have hlt := toInt_lt m
    omega
  · rintro ⟨hm, hlt⟩
    obtain ⟨n, rfl⟩ := Int.eq_ofNat_of_zero_le hm
    have hint : toInt n = n := toInt_of_lt (by omega)
    have hroom : (s.sock.incoming.take (n : ℤ).toNat).length ≤ (s.buffer.takeD n 0).length := by
      simp only [Int.toNat_natCast, List.takeD_length, List.length_take]
      omega
    refine ⟨hm, s.buffer.takeD n 0, ?_, by rw [List.takeD_length], _, _, _,
      QTcpSocket.read_of_nonneg hm hroom, Int.natCast_nonneg _, toInt_of_lt ?_⟩
    · rw [hint]
      exact resize_of_nonneg hm _
    · rw [List.takeD_length] at hroom
      omega

/-! ### What the slot does -/

/-- The slot after a prefix, up to the point where the message is looked at. -/
def announced (s : Session) (n : UInt64) : Session :=
  { s.prefixTaken with messageSize := toQInt64 n.toNat }

theorem announced_messageSize (s : Session) (n : UInt64) :
    (s.announced n).messageSize = toQInt64 n.toNat := by
  simp only [announced]

theorem announced_incoming (s : Session) (n : UInt64) :
    (s.announced n).sock.incoming = s.sock.incoming.drop PREFIX_SIZE := rfl

/-- The slot calls `readMessage`, takes a prefix for later, or forgets what it has read. -/
inductive Slot (pb : Protobuf) (s : Session) : Option Session → Prop
  | together {n : UInt64} (hn : s.Announces pb n)
      (hall : (s.sock.incoming.length : ℤ) = PREFIX_SIZE + toQInt64 n.toNat)
      (hcall : s.messageCall pb = some (s.announced n)) :
      Slot pb s ((loadMesg pb (s.announced n)).bind fun s' => some { s' with bytesReaded := 0 })
  | later (hread : s.bytesReaded = PREFIX_SIZE) (hall : s.messageSize ≤ s.sock.incoming.length)
      (hcall : s.messageCall pb = some s) :
      Slot pb s ((loadMesg pb s).bind fun s' => some { s' with bytesReaded := 0 })
  | announced {n : UInt64} (hn : s.Announces pb n) (hcall : s.messageCall pb = none)
      (hsome : (s.sock.incoming.length : ℤ) ≠ PREFIX_SIZE + toQInt64 n.toNat) :
      Slot pb s (some (s.announced n))
  | nothing {s' : Session} (hread : s'.bytesReaded = 0) (hcall : s.messageCall pb = none)
      (herror : ∀ n, s.Announces pb n → toQInt64 n.toNat = PARSE_ERROR)
      (hmore : s.bytesReaded = PREFIX_SIZE → (s.sock.incoming.length : ℤ) < s.messageSize) :
      Slot pb s (some s')

theorem onReadyRead_slot (pb : Protobuf) (s : Session) : s.Slot pb (onReadyRead pb s) := by
  have hless : s.bytesReaded < PREFIX_SIZE → s.bytesReaded ≠ PREFIX_SIZE := fun h => ne_of_lt h
  by_cases hpre : s.bytesReaded < PREFIX_SIZE ∧ s.sock.bytesAvailable ≥ PREFIX_SIZE
  · have havail : PREFIX_SIZE ≤ s.sock.incoming.length := by
      have h := hpre.2
      rw [QTcpSocket.bytesAvailable] at h
      omega
    have hread := readPrefix_eq pb (s := { s with bytesReaded := 0 }) havail
    cases hparse : pb.parsePrefix (s.sock.incoming.take PREFIX_SIZE) with
    | none =>
      simp only [hparse] at hread
      rw [onReadyRead, if_pos hpre, Option.bind_eq_bind, hread, Option.bind_some]
      refine .nothing rfl ?_ (fun n hn => ?_) fun h => absurd h (hless hpre.1)
      · rw [messageCall, if_pos hpre, Option.bind_eq_bind, hread, Option.bind_some]
        rfl
      · cases hparse.symm.trans hn.2.2
    | some n =>
      simp only [hparse] at hread
      have hn : s.Announces pb n := ⟨hpre.1, havail, hparse⟩
      have hrest : ({ s with bytesReaded := 0 } : Session).prefixTaken.sock.bytesAvailable =
          s.sock.incoming.length - PREFIX_SIZE := by
        change ((s.sock.incoming.drop PREFIX_SIZE).length : ℤ) = _
        rw [List.length_drop]
        omega
      rw [onReadyRead, if_pos hpre, Option.bind_eq_bind, hread, Option.bind_some]
      have hcall : s.messageCall pb = if toQInt64 n.toNat ≠ PARSE_ERROR ∧
          (s.sock.incoming.length : ℤ) = PREFIX_SIZE + toQInt64 n.toNat then
            some (s.announced n) else none := by
        rw [messageCall, if_pos hpre, Option.bind_eq_bind, hread, Option.bind_some]
        simp only [hrest, sub_eq_iff_eq_add']
        rfl
      dsimp only
      split_ifs with herror hall
      · refine .nothing rfl (by rw [hcall, if_neg fun h => h.1 herror]) (fun n' hn' => ?_)
          fun h => absurd h (hless hpre.1)
        cases hparse.symm.trans hn'.2.2
        exact herror
      · rw [hrest, sub_eq_iff_eq_add'] at hall
        exact .together hn hall (by rw [hcall, if_pos ⟨herror, hall⟩])
      · rw [hrest, sub_eq_iff_eq_add'] at hall
        exact .announced hn (by rw [hcall, if_neg fun h => hall h.2]) hall
  · rw [onReadyRead, if_neg hpre]
    have hcall : s.messageCall pb = if s.bytesReaded = PREFIX_SIZE ∧
        s.sock.bytesAvailable ≥ s.messageSize then some s else none := by
      rw [messageCall, if_neg hpre]
    split_ifs with hbody
    · exact .later hbody.1 hbody.2 (by rw [hcall, if_pos hbody])
    · refine .nothing rfl (by rw [hcall, if_neg hbody]) (fun n hn => ?_) fun h => ?_
      · exact absurd ⟨hn.1, Int.ofNat_le.mpr hn.2.1⟩ hpre
      · exact not_le.mp fun hle => hbody ⟨h, hle⟩

/-! ### When it stays inside the buffer -/

theorem Announces.unique {n n' : UInt64} (h : s.Announces pb n) (h' : s.Announces pb n') : n' = n :=
  Option.some_inj.mp (h'.2.2.symm.trans h.2.2)

theorem insideBuffer_of_call (h : s.messageCall pb = some t) :
    s.InsideBuffer pb ↔ 0 ≤ t.messageSize ∧ t.messageSize < 2 ^ 31 := by
  rw [← readsWithin_iff, InsideBuffer]
  exact ⟨fun hall => hall t h, fun ht t' h' => Option.some_inj.mp (h.symm.trans h') ▸ ht⟩

theorem insideBuffer_of_no_call (h : s.messageCall pb = none) : s.InsideBuffer pb :=
  fun t ht => by cases h.symm.trans ht

theorem toQInt64_of_nonneg {n : UInt64} (h : 0 ≤ toQInt64 n.toNat) :
    toQInt64 n.toNat = n.toNat ∧ n.toNat < 2 ^ 63 := by
  have hlt := n.toNat_lt
  rw [toQInt64, Int.bmod_def] at h ⊢
  split_ifs at h ⊢ <;> omega

/-- **One event.** -/
theorem insideBuffer_iff : s.InsideBuffer pb ↔ s.Harmless pb := by
  have hslot := onReadyRead_slot pb s
  generalize onReadyRead pb s = r at hslot
  cases hslot with
  | @together n hn hall hcall =>
    rw [insideBuffer_of_call hcall]
    have havail := hn.2.1
    obtain ⟨hsize, hlt⟩ := toQInt64_of_nonneg (n := n) (by omega)
    rw [announced_messageSize, hsize]
    rw [hsize] at hall
    constructor
    · rintro ⟨-, hint⟩
      refine ⟨fun n' hn' _ _ => ?_, fun h => absurd hn.1 (by omega),
        fun h => absurd hn.1 (by omega)⟩
      rw [hn.unique hn']
      omega
    · intro h
      have hint := h.together n hn hlt (by omega)
      omega
  | later hread hall hcall =>
    rw [insideBuffer_of_call hcall]
    constructor
    · rintro ⟨h0, hlt⟩
      exact ⟨fun n hn => absurd hn.1 (by omega), fun _ => h0, fun _ _ => hlt⟩
    · intro h
      exact ⟨h.nonneg hread, h.later hread hall⟩
  | @announced n hn hcall hsome =>
    refine iff_of_true (insideBuffer_of_no_call hcall) ⟨fun n' hn' hlt hall => ?_,
      fun h => absurd hn.1 (by omega), fun h => absurd hn.1 (by omega)⟩
    -- the whole message would be there
    rw [hn.unique hn'] at hlt hall
    rw [toQInt64_of_lt hlt] at hsome
    exact absurd (by omega) hsome
  | nothing hread hcall herror hmore =>
    refine iff_of_true (insideBuffer_of_no_call hcall) ⟨fun n hn hlt _ => ?_, fun h => ?_,
      fun h hle => absurd (hmore h) (not_lt.mpr hle)⟩
    · have hminus := herror n hn
      rw [toQInt64_of_lt hlt, PARSE_ERROR] at hminus
      omega
    · have hpos := hmore h
      omega

/-- **A run.** -/
theorem eachEvent_insideBuffer_iff (pb : Protobuf) (s : Session) (chunks : List (List UInt8)) :
    EachEvent (readyRead pb) (fun s chunk => (s.arrive chunk).InsideBuffer pb) s chunks ↔
      EachEvent (readyRead pb) (fun s chunk => (s.arrive chunk).Harmless pb) s chunks :=
  eachEvent_congr fun _ _ => insideBuffer_iff

/-! ### Undefined behaviour -/

/-- A message that is there is read without undefined behaviour when it fits into the buffer. -/
theorem isSome_readMessage_iff (pb : Protobuf) {m : ℤ} (hle : m ≤ s.sock.incoming.length) :
    (readMessage pb m s).isSome ↔ 0 ≤ m ∧ m < 2 ^ 31 := by
  constructor
  · intro h
    obtain ⟨⟨r, s'⟩, hread⟩ := Option.isSome_iff_exists.mp h
    refine ⟨(readMessage_some hread).1, ?_⟩
    simp only [readMessage, Option.bind_eq_bind, Option.bind_eq_some_iff, Prod.exists] at hread
    obtain ⟨buffer, hresize, readed, buffer', sock', hsock, hread⟩ := hread
    split_ifs at hread with hneg
    obtain ⟨hm, hroom⟩ := QTcpSocket.read_some hsock hneg
    rw [resize] at hresize
    split_ifs at hresize with h0
    cases hresize
    rw [List.takeD_length, List.length_take] at hroom
    have hlt := toInt_lt m
    omega
  · rintro ⟨hm, hlt⟩
    obtain ⟨n, rfl⟩ := Int.eq_ofNat_of_zero_le hm
    exact readMessage_isSome (by omega) s

theorem isSome_loadMesg_iff (pb : Protobuf) (hle : s.messageSize ≤ s.sock.incoming.length) :
    (loadMesg pb s).isSome ↔ 0 ≤ s.messageSize ∧ s.messageSize < 2 ^ 31 := by
  rw [← isSome_readMessage_iff pb hle, loadMesg, Option.bind_eq_bind]
  cases readMessage pb s.messageSize s with
  | none => rfl
  | some r =>
    obtain ⟨message, s'⟩ := r
    cases message <;> exact iff_of_true rfl rfl

/-- An event is defined when it stays inside the buffer. -/
theorem isSome_onReadyRead_iff : (onReadyRead pb s).isSome ↔ s.InsideBuffer pb := by
  have hslot := onReadyRead_slot pb s
  generalize onReadyRead pb s = r at hslot
  cases hslot with
  | @together n hn hall hcall =>
    have havail := hn.2.1
    rw [insideBuffer_of_call hcall, ← isSome_loadMesg_iff pb]
    · cases loadMesg pb (s.announced n) <;> rfl
    · rw [announced_messageSize, announced_incoming, List.length_drop]
      omega
  | later hread hall hcall =>
    rw [insideBuffer_of_call hcall, ← isSome_loadMesg_iff pb hall]
    cases loadMesg pb s <;> rfl
  | announced hn hcall hsome => exact iff_of_true rfl (insideBuffer_of_no_call hcall)
  | nothing hread hcall herror hmore => exact iff_of_true rfl (insideBuffer_of_no_call hcall)

/-- A run breaks off only at an event that leaves the buffer. -/
theorem isSome_run_iff_insideBuffer {chunks : List (List UInt8)} :
    (run (readyRead pb) s chunks).isSome ↔
      EachEvent (readyRead pb) (fun s chunk => (s.arrive chunk).InsideBuffer pb) s chunks :=
  isSome_run_iff fun _ _ => isSome_onReadyRead_iff

/-! ### Announcements of ordinary size -/

/-- A length that a prefix has left behind fits into an `int`. -/
def Ordinary (s : Session) : Prop :=
  s.bytesReaded = PREFIX_SIZE → 0 ≤ s.messageSize ∧ s.messageSize < 2 ^ 31

theorem ordinary_of_onReadyRead {s' : Session} (hn : ∀ n, s.Announces pb n → n.toNat < 2 ^ 31)
    (h : onReadyRead pb s = some s') : s'.Ordinary := by
  have hslot := onReadyRead_slot pb s
  rw [h] at hslot
  generalize hr : some s' = r at hslot
  cases hslot with
  | together | later =>
    obtain ⟨t, -, ht⟩ := Option.bind_eq_some_iff.mp hr.symm
    cases ht
    exact fun h9 => by cases h9
  | announced hann =>
    cases hr
    intro _
    have hlt := hn _ hann
    rw [announced_messageSize, toQInt64_of_lt (by omega)]
    omega
  | nothing hread =>
    cases hr
    exact fun h9 => by cases hread.symm.trans h9

/-- **Lengths below two gigabytes.** If no prefix announces more, every run stays inside the
buffer. -/
theorem eachEvent_insideBuffer_of_announced (hs : s.Ordinary) {chunks : List (List UInt8)}
    (h : EachEvent (readyRead pb)
      (fun s chunk => ∀ n, (s.arrive chunk).Announces pb n → n.toNat < 2 ^ 31) s chunks) :
    EachEvent (readyRead pb) (fun s chunk => (s.arrive chunk).InsideBuffer pb) s chunks := by
  induction chunks generalizing s with
  | nil => trivial
  | cons chunk chunks ih =>
    refine ⟨insideBuffer_iff.mpr ⟨fun n hn _ _ => h.1 n hn, fun h9 => (hs h9).1,
      fun h9 _ => (hs h9).2⟩, fun s' hs' => ih (ordinary_of_onReadyRead h.1 hs') (h.2 s' hs')⟩

/-- A prefix that announces `2 ^ 63`, and one more byte. -/
def hugePrefix : List (List UInt8) := [serializePrefix 9223372036854775808, [0]]

/-- The negative length is more than the bytes that are there, and `readMessage` is called with
it. -/
theorem not_insideBuffer_hugePrefix :
    ((run (readyRead proto3) initial [serializePrefix 9223372036854775808]).bind fun s =>
      ((s.arrive [0]).messageCall proto3).map messageSize) = some (-9223372036854775808) ∧
    ¬ EachEvent (readyRead proto3) (fun s chunk => (s.arrive chunk).InsideBuffer proto3) initial
      hugePrefix := by
  have hcall : ((run (readyRead proto3) initial [serializePrefix 9223372036854775808]).bind fun s =>
      ((s.arrive [0]).messageCall proto3).map messageSize) = some (-9223372036854775808) := by
    decide
  refine ⟨hcall, fun h => ?_⟩
  obtain ⟨s, hs, hmap⟩ := Option.bind_eq_some_iff.mp hcall
  obtain ⟨t, ht, hsize⟩ := Option.map_eq_some_iff.mp hmap
  rw [run_cons, Option.bind_eq_some_iff] at hs
  obtain ⟨_, hs, hnil⟩ := hs
  cases hnil
  have hnonneg := ((h.2 s hs).1 t ht).nonneg
  rw [hsize] at hnonneg
  exact absurd hnonneg (by decide)

end Session

end Elegram
