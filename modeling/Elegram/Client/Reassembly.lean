import Elegram.Client.Framing
import Elegram.Protocol.Proto3
import Mathlib.Data.List.DropRight

/-!
# Reassembly of responses from chunks

TCP may cut the bytes of a frame anywhere, and `onReadyRead` runs once for every chunk that
arrives. A session that has read a prefix and finds the body incomplete keeps `bytesReaded = 9`
for one event only: if the body is still incomplete in the next one, the last branch of the slot
sets `bytesReaded` back to zero, and the rest of the body is then taken for the beginning of a
frame.

`CutFrame.delivers_iff_promptlyCut` says exactly which cuts are harmless: those in which at most
one chunk follows the one that completes the prefix. The delivering direction runs the slot
forward (`onReadyRead_prefix_incomplete`, `onReadyRead_prefix`, `onReadyRead_body`). In the other
direction the invariant `Short` says that the bytes still to come, together with those that are
there, are fewer than the body; a message that is parsed from them cannot be the response.
-/

namespace Elegram

open Transition

/-! ### Conversions that change nothing -/

theorem toQInt64_of_lt {n : ℕ} (h : n < 2 ^ 63) : toQInt64 n = n := by
  rw [toQInt64, Int.bmod_def]
  split_ifs <;> omega

/-! ### One lemma for each function -/

theorem resize_of_nonneg {m : ℤ} (h : 0 ≤ m) (buffer : List UInt8) :
    resize buffer m = some (buffer.takeD m.toNat 0) :=
  if_pos h

/-- A read that has room takes the oldest bytes off the socket. -/
theorem QTcpSocket.read_of_nonneg {m : ℤ} (h : 0 ≤ m) {sock : QTcpSocket} {buffer : List UInt8}
    (hroom : (sock.incoming.take m.toNat).length ≤ buffer.length) :
    sock.read buffer m = some (((sock.incoming.take m.toNat).length : ℤ),
      sock.incoming.take m.toNat ++ buffer.drop (sock.incoming.take m.toNat).length,
      { sock with incoming := sock.incoming.drop m.toNat }) := by
  rw [QTcpSocket.read, if_neg (not_lt.mpr h)]
  exact if_pos hroom

/-- A read that returns a byte count had a request for at least none, and room for the bytes. -/
theorem QTcpSocket.read_some {m readed : ℤ} {sock sock' : QTcpSocket} {buffer buffer' : List UInt8}
    (h : sock.read buffer m = some (readed, buffer', sock')) (h0 : ¬ readed < 0) :
    0 ≤ m ∧ (sock.incoming.take m.toNat).length ≤ buffer.length := by
  rw [QTcpSocket.read] at h
  split_ifs at h with hm
  · cases h
    exact absurd (by decide) h0
  · refine ⟨not_lt.mp hm, ?_⟩
    by_contra hroom
    simp only [if_neg hroom] at h
    cases h

namespace Session

variable {pb : Protobuf}

/-- The session after the nine bytes of a prefix have been read. -/
def prefixTaken (s : Session) : Session :=
  { s with
    buffer := s.sock.incoming.take PREFIX_SIZE
    sock := { s.sock with incoming := s.sock.incoming.drop PREFIX_SIZE }
    bytesReaded := PREFIX_SIZE }

variable (pb) in
theorem readPrefix_eq {s : Session} (h : PREFIX_SIZE ≤ s.sock.incoming.length) :
    readPrefix pb s = some
      (match pb.parsePrefix (s.sock.incoming.take PREFIX_SIZE) with
        | some length => toQInt64 length.toNat
        | none => PARSE_ERROR,
        s.prefixTaken) := by
  have hlen : (s.sock.incoming.take PREFIX_SIZE).length = PREFIX_SIZE := by
    rw [List.length_take]
    omega
  have hresize : resize s.buffer PREFIX_SIZE = some (s.buffer.takeD PREFIX_SIZE 0) :=
    resize_of_nonneg (Int.natCast_nonneg _) _
  have hread : s.sock.read (s.buffer.takeD PREFIX_SIZE 0) (PREFIX_SIZE : ℤ) = some
      ((PREFIX_SIZE : ℤ), s.sock.incoming.take PREFIX_SIZE,
        { s.sock with incoming := s.sock.incoming.drop PREFIX_SIZE }) := by
    rw [QTcpSocket.read_of_nonneg (Int.natCast_nonneg _)]
    · rw [Int.toNat_natCast, hlen, List.drop_eq_nil_of_le (by rw [List.takeD_length]),
        List.append_nil]
    · rw [Int.toNat_natCast, hlen, List.takeD_length]
  rw [readPrefix, hresize, Option.bind_eq_bind, Option.bind_some, hread, Option.bind_eq_bind,
    Option.bind_some]
  dsimp only
  rw [Int.toNat_natCast, List.take_of_length_le (le_of_eq hlen)]
  cases pb.parsePrefix (s.sock.incoming.take PREFIX_SIZE) with
  | none => rfl
  | some length => rfl

/-- What a defined `readMessage` does: it parses the bytes it takes off the socket. -/
theorem readMessage_some {m : ℤ} {s s' : Session} {r : Option WrappedMessage}
    (h : readMessage pb m s = some (r, s')) :
    0 ≤ m ∧ r = pb.parse (s.sock.incoming.take m.toNat) ∧
      s'.sock = { s.sock with incoming := s.sock.incoming.drop m.toNat } ∧
      s'.callbacks = s.callbacks := by
  simp only [readMessage, Option.bind_eq_bind, Option.bind_eq_some_iff, Prod.exists] at h
  obtain ⟨buffer, hresize, readed, buffer', sock', hread, h⟩ := h
  split_ifs at h with hneg
  obtain ⟨hm, hroom⟩ := QTcpSocket.read_some hread hneg
  rw [QTcpSocket.read_of_nonneg hm hroom] at hread
  cases hread
  cases h
  refine ⟨hm, ?_, rfl, rfl⟩
  have hsize : buffer.length < 2 ^ 31 := by
    rw [resize] at hresize
    split_ifs at hresize with h0
    cases hresize
    rw [List.takeD_length]
    have := toInt_lt m
    omega
  rw [toInt_of_lt (lt_of_le_of_lt hroom hsize), pb.parseFromArray_take _ _ ?_, List.take_left' rfl]
  · rfl
  · rw [List.length_append]
    exact Nat.le_add_right _ _

/-- A message that fits into an `int` can be read. -/
theorem readMessage_isSome {n : ℕ} (hn : n < 2 ^ 31) (s : Session) :
    (readMessage pb n s).isSome := by
  have hresize : resize s.buffer (toInt n) = some (s.buffer.takeD n 0) := by
    rw [toInt_of_lt hn]
    exact resize_of_nonneg (Int.natCast_nonneg _) _
  have hroom : (s.sock.incoming.take (n : ℤ).toNat).length ≤ (s.buffer.takeD n 0).length := by
    simp only [Int.toNat_natCast, List.takeD_length, List.length_take]
    omega
  simp only [readMessage, Option.bind_eq_bind, hresize, Option.bind_some,
    QTcpSocket.read_of_nonneg (Int.natCast_nonneg n) hroom]
  rw [if_neg (by omega)]
  rfl

/-- `loadMesg` either hands the response parsed from the bytes of the message to the callback or
leaves the callbacks alone, and takes nothing back from the socket. -/
theorem loadMesg_parses {s s' : Session} (h : loadMesg pb s = some s') :
    s'.sock.incoming.length ≤ s.sock.incoming.length ∧
      (s'.callbacks = s.callbacks ∨
        ∃ mesg, pb.parse (s.sock.incoming.take s.messageSize.toNat) = some (.response mesg) ∧
          s'.callbacks = s.callbacks ++ [mesg]) := by
  simp only [loadMesg, Option.bind_eq_bind, Option.bind_eq_some_iff, Prod.exists] at h
  obtain ⟨r, s₁, hread, h⟩ := h
  obtain ⟨-, hr, hsock, hcb⟩ := readMessage_some hread
  cases r with
  | none =>
    cases h
    exact ⟨Nat.zero_le _, Or.inl hcb⟩
  | some message =>
    cases h
    cases message with
    | response mesg =>
      refine ⟨by simp [processResponse, hsock], Or.inr ⟨mesg, hr.symm, ?_⟩⟩
      simp only [processResponse, hcb]
    | request mesg => exact ⟨by simp [processResponse, hsock], Or.inl hcb⟩
    | msgNotSet => exact ⟨by simp [processResponse, hsock], Or.inl hcb⟩

theorem loadMesg_some {s s' : Session} (h : loadMesg pb s = some s') :
    s'.sock.incoming.length ≤ s.sock.incoming.length ∧
      (s'.callbacks = s.callbacks ∨
        ∃ data mesg, data.length ≤ s.sock.incoming.length ∧
          pb.parse data = some (.response mesg) ∧ s'.callbacks = s.callbacks ++ [mesg]) := by
  obtain ⟨hle, hcases⟩ := loadMesg_parses h
  refine ⟨hle, hcases.imp_right ?_⟩
  rintro ⟨mesg, hparse, hcb⟩
  exact ⟨_, mesg, by rw [List.length_take]; omega, hparse, hcb⟩

/-- A whole message that carries a response is consumed and handed to the callback. -/
theorem loadMesg_response {s : Session} {mesg : Response}
    (hin : s.sock.incoming = pb.serialize (.response mesg))
    (hlt : (pb.serialize (.response mesg)).length < 2 ^ 31)
    (hsize : s.messageSize = (pb.serialize (.response mesg)).length) :
    ∃ s', loadMesg pb s = some s' ∧ s'.sock.incoming = [] ∧
      s'.callbacks = s.callbacks ++ [mesg] := by
  obtain ⟨⟨r, s₁⟩, hread⟩ := Option.isSome_iff_exists.mp (readMessage_isSome hlt s)
  obtain ⟨-, hr, hsock, hcb⟩ := readMessage_some hread
  simp only [hin, Int.toNat_natCast, List.take_length, List.drop_length] at hr hsock
  rw [pb.parse_serialize' hlt] at hr
  refine ⟨processResponse (.response mesg) s₁, ?_, ?_, ?_⟩
  · simp only [loadMesg, Option.bind_eq_bind, hsize, hread, Option.bind_some, hr]
  · simp only [processResponse, hsock]
  · simp only [processResponse, hcb]

/-! ### The slot, phase by phase -/

/-- Before the prefix is complete the slot does nothing. -/
theorem onReadyRead_prefix_incomplete {s : Session} (h0 : s.bytesReaded = 0)
    (h : s.sock.incoming.length < PREFIX_SIZE) : onReadyRead pb s = some s := by
  have hno : ¬ s.sock.bytesAvailable ≥ PREFIX_SIZE := by
    rw [QTcpSocket.bytesAvailable]
    omega
  rw [onReadyRead, if_neg (fun hc => hno hc.2), if_neg, ← h0]
  rintro ⟨h9, -⟩
  rw [h0] at h9
  exact absurd h9 (by decide)

variable (pb) in
/-- The slot of an event with a complete prefix, up to the point where the body is looked at. -/
theorem onReadyRead_prefix {s : Session} {n : UInt64} {rest : List UInt8} (hn : n ≠ 0)
    (hlt : n.toNat < 2 ^ 31) (h0 : s.bytesReaded = 0)
    (hin : s.sock.incoming = serializePrefix n ++ rest) :
    onReadyRead pb s =
      if rest.length = n.toNat then
        (loadMesg pb { s.prefixTaken with messageSize := n.toNat }).bind
          fun s' => some { s' with bytesReaded := 0 }
      else some { s.prefixTaken with messageSize := n.toNat } := by
  have hlen : (serializePrefix n).length = PREFIX_SIZE := length_serializePrefix hn
  have havail : PREFIX_SIZE ≤ s.sock.incoming.length := by
    rw [hin, List.length_append]
    omega
  have hcond : s.bytesReaded < PREFIX_SIZE ∧ s.sock.bytesAvailable ≥ PREFIX_SIZE := by
    rw [QTcpSocket.bytesAvailable, h0]
    exact ⟨by decide, by omega⟩
  have hparse : pb.parsePrefix (s.sock.incoming.take PREFIX_SIZE) = some n := by
    rw [hin, List.take_left' hlen]
    exact pb.parsePrefix_serializePrefix n hn
  have hread := readPrefix_eq pb (s := { s with bytesReaded := 0 }) havail
  have hs : { s with bytesReaded := 0 } = s := by rw [← h0]
  rw [hs] at hread
  rw [hparse] at hread
  dsimp only at hread
  rw [toQInt64_of_lt (by omega)] at hread
  have hdrop : s.prefixTaken.sock.incoming = rest := by
    rw [prefixTaken, hin, List.drop_left' hlen]
  rw [onReadyRead, if_pos hcond, hs, Option.bind_eq_bind, hread, Option.bind_some]
  simp only [QTcpSocket.bytesAvailable, hdrop]
  rw [if_neg (by rw [PARSE_ERROR]; omega)]
  by_cases hrest : rest.length = n.toNat
  · rw [if_pos (by omega), if_pos hrest]
    rfl
  · rw [if_neg (by omega), if_neg hrest]

/-- The body completes in the event right after the prefix was read. -/
theorem onReadyRead_body {s : Session} (h9 : s.bytesReaded = PREFIX_SIZE)
    (hle : s.messageSize ≤ s.sock.incoming.length) :
    onReadyRead pb s = (loadMesg pb s).bind fun s' => some { s' with bytesReaded := 0 } := by
  rw [onReadyRead, if_neg (by rw [h9]; exact fun hc => lt_irrefl _ hc.1),
    if_pos ⟨h9, by rw [QTcpSocket.bytesAvailable]; exact hle⟩]
  rfl

/-- The body is still incomplete in the event after the prefix was read: the phase is lost. -/
theorem onReadyRead_body_incomplete {s : Session} (h9 : s.bytesReaded = PREFIX_SIZE)
    (hlt : (s.sock.incoming.length : ℤ) < s.messageSize) :
    onReadyRead pb s = some { s with bytesReaded := 0 } := by
  rw [onReadyRead, if_neg (by rw [h9]; exact fun hc => lt_irrefl _ hc.1), if_neg]
  rintro ⟨-, hge⟩
  rw [QTcpSocket.bytesAvailable] at hge
  omega

/-- Exactly `n` bytes are left, in the socket or still to come, and nine of them will be taken for a
prefix first, or at most `n - 9` are left. -/
def Short (n rest : ℕ) (s : Session) : Prop :=
  s.sock.incoming.length + rest + PREFIX_SIZE ≤ n ∨
    (s.sock.incoming.length + rest = n ∧ s.bytesReaded = 0)

/-- From a short session the slot can only hand over messages for which `n` bytes are nine too
many, and the session stays short. -/
theorem onReadyRead_short {n rest : ℕ} {s s' : Session} (h : onReadyRead pb s = some s')
    (hs : s.Short n rest) :
    s'.Short n rest ∧ (s'.callbacks = s.callbacks ∨
      ∃ data mesg, data.length + PREFIX_SIZE ≤ n ∧ pb.parse data = some (.response mesg) ∧
        s'.callbacks = s.callbacks ++ [mesg]) := by
  -- what a load does, from a session that already took less than everything
  have hload : ∀ s₁ s₂ : Session, loadMesg pb s₁ = some s₂ → s₁.callbacks = s.callbacks →
      s₁.sock.incoming.length + rest + PREFIX_SIZE ≤ n →
      ({ s₂ with bytesReaded := 0 } : Session).Short n rest ∧
        (s₂.callbacks = s.callbacks ∨
          ∃ data mesg, data.length + PREFIX_SIZE ≤ n ∧ pb.parse data = some (.response mesg) ∧
            s₂.callbacks = s.callbacks ++ [mesg]) := by
    intro s₁ s₂ h₂ hcb hlt
    obtain ⟨hle, hcases⟩ := loadMesg_some h₂
    rw [hcb] at hcases
    refine ⟨Or.inl (le_trans (Nat.add_le_add_right (Nat.add_le_add_right hle rest) _) hlt), ?_⟩
    rcases hcases with hsame | ⟨data, mesg, hdata, hparse, hnew⟩
    · exact Or.inl hsame
    · exact Or.inr ⟨data, mesg, by omega, hparse, hnew⟩
  rw [onReadyRead] at h
  split_ifs at h with h1 h2
  · -- nine bytes are taken for a prefix
    have havail : PREFIX_SIZE ≤ s.sock.incoming.length := by
      have := h1.2
      rw [QTcpSocket.bytesAvailable] at this
      omega
    have hless : s.prefixTaken.sock.incoming.length + rest + PREFIX_SIZE ≤ n := by
      have : s.prefixTaken.sock.incoming.length = s.sock.incoming.length - PREFIX_SIZE := by
        rw [prefixTaken, List.length_drop]
      rw [PREFIX_SIZE] at *
      rcases hs with hs | ⟨hs, -⟩ <;> omega
    rw [Option.bind_eq_bind, readPrefix_eq pb (s := { s with bytesReaded := 0 }) havail,
      Option.bind_some] at h
    dsimp only at h
    split_ifs at h with hbad hall
    · cases h
      refine ⟨Or.inl ?_, Or.inl rfl⟩
      rw [QTcpSocket.abort, List.length_nil]
      omega
    · rw [Option.bind_eq_bind, Option.bind_eq_some_iff] at h
      obtain ⟨s₂, h₂, h⟩ := h
      cases h
      exact hload _ s₂ h₂ rfl hless
    · cases h
      exact ⟨Or.inl hless, Or.inl rfl⟩
  · -- a body is loaded, so a prefix had been taken before
    rw [Option.bind_eq_bind, Option.bind_eq_some_iff] at h
    obtain ⟨s₂, h₂, h⟩ := h
    cases h
    refine hload s s₂ h₂ rfl ?_
    rcases hs with hs | ⟨-, h0⟩
    · exact hs
    · rw [h0] at h2
      exact absurd h2.1 (by decide)
  · cases h
    refine ⟨?_, Or.inl rfl⟩
    rcases hs with hs | ⟨hs, -⟩
    · exact Or.inl hs
    · exact Or.inr ⟨hs, rfl⟩

/-! ### Runs of events -/

theorem arrive_arrive (s : Session) (c d : List UInt8) :
    (s.arrive c).arrive d = s.arrive (c ++ d) := by
  simp only [arrive, List.append_assoc]

/-- While the prefix is incomplete the bytes only accumulate. -/
theorem run_front {s : Session} (h0 : s.bytesReaded = 0) (hin : s.sock.incoming = []) :
    ∀ {front : List (List UInt8)}, front.flatten.length < PREFIX_SIZE →
      run (readyRead pb) s front = some (s.arrive front.flatten) := by
  intro front
  induction front using List.reverseRecOn with
  | nil =>
    intro _
    rw [run_nil, List.flatten_nil, arrive, List.append_nil]
  | append_singleton front c ih =>
    intro hlt
    rw [List.flatten_concat, List.length_append] at hlt
    rw [List.flatten_concat, ← arrive_arrive]
    refine run_concat (ih (by omega)) (onReadyRead_prefix_incomplete h0 ?_)
    simp only [arrive, hin, List.nil_append, List.length_append]
    omega

/-- A short session stays short, and hands over only messages for which `n` bytes are nine too
many. -/
theorem run_short {n : ℕ} : ∀ {chunks : List (List UInt8)} {s s' : Session},
    run (readyRead pb) s chunks = some s' → s.Short n chunks.flatten.length →
      ∃ late : List Response, s'.callbacks = s.callbacks ++ late ∧
        ∀ mesg ∈ late, ∃ data, data.length + PREFIX_SIZE ≤ n ∧
          pb.parse data = some (.response mesg) := by
  intro chunks
  induction chunks with
  | nil =>
    intro s s' h _
    cases h
    exact ⟨[], by rw [List.append_nil], by simp⟩
  | cons c chunks ih =>
    intro s s' h hs
    rw [run_cons, Option.bind_eq_some_iff] at h
    obtain ⟨s₁, h₁, h₂⟩ := h
    have harr : (s.arrive c).Short n chunks.flatten.length := by
      simp only [Short, arrive, List.flatten_cons, List.length_append] at hs ⊢
      rcases hs with hs | ⟨hs, h0⟩
      · exact Or.inl (by omega)
      · exact Or.inr ⟨by omega, h0⟩
    obtain ⟨hshort, hcb⟩ := onReadyRead_short h₁ harr
    obtain ⟨late, hlate, hall⟩ := ih h₂ hshort
    rcases hcb with hsame | ⟨data, mesg, hdata, hparse, hnew⟩
    · exact ⟨late, by rw [hlate, hsame]; rfl, hall⟩
    · refine ⟨mesg :: late, by rw [hlate, hnew, List.append_assoc]; rfl, ?_⟩
      intro m hm
      rcases List.mem_cons.mp hm with rfl | hm
      · exact ⟨data, hdata, hparse⟩
      · exact hall m hm

end Session

/-! ### Frames cut into chunks -/

/-- A response frame together with one way of cutting its bytes into non-empty chunks. -/
structure CutFrame (pb : Protobuf) where
  response : Response
  chunks : List (List UInt8)
  size_pos : 1 ≤ (pb.serialize (.response response)).length
  size_lt : (pb.serialize (.response response)).length < 2 ^ 31
  chunks_ne : ∀ c ∈ chunks, c ≠ []
  flatten_chunks : chunks.flatten = pb.frame (.response response)

namespace CutFrame

variable {pb : Protobuf}

/-- Once the nine bytes of the prefix are there, at most one more chunk follows. -/
def PromptlyCut (f : CutFrame pb) : Prop :=
  ∀ front back, f.chunks = front ++ back → PREFIX_SIZE ≤ front.flatten.length → back.length ≤ 1

/-- The session after the last chunk of the frame: the response has been handed to `m_callback`,
once and nothing else with it, and no byte and no phase is left over. -/
def Delivered (f : CutFrame pb) (s s' : Session) : Prop :=
  s'.callbacks = s.callbacks ++ [f.response] ∧ s'.sock.incoming = [] ∧ s'.bytesReaded = 0

/-- Every frame, arriving chunk by chunk after the previous one has been handled, is delivered by
the event of its last chunk. -/
def Delivers (pb : Protobuf) : Session → List (CutFrame pb) → Prop
  | _, [] => True
  | s, f :: fs =>
      ∃ s', run (Session.readyRead pb) s f.chunks = some s' ∧ f.Delivered s s' ∧ Delivers pb s' fs

theorem toNat_byteSize (f : CutFrame pb) :
    (pb.byteSize (.response f.response)).toNat = (pb.serialize (.response f.response)).length :=
  Protobuf.toNat_byteSize (f.size_lt.trans (by decide))

theorem byteSize_ne (f : CutFrame pb) : pb.byteSize (.response f.response) ≠ 0 :=
  Protobuf.byteSize_ne f.size_pos (f.size_lt.trans (by decide))

/-- The chunk that completes the prefix. -/
theorem exists_prefix_event {chunks : List (List UInt8)}
    (h : PREFIX_SIZE ≤ chunks.flatten.length) :
    ∃ front c back, chunks = front ++ c :: back ∧ front.flatten.length < PREFIX_SIZE ∧
      PREFIX_SIZE ≤ (front ++ [c]).flatten.length := by
  induction chunks using List.reverseRecOn with
  | nil => exact absurd h (by decide)
  | append_singleton chunks c ih =>
    by_cases hlt : PREFIX_SIZE ≤ chunks.flatten.length
    · obtain ⟨front, d, back, rfl, hfront, hd⟩ := ih hlt
      exact ⟨front, d, back ++ [c], by simp, hfront, hd⟩
    · exact ⟨chunks, c, [], rfl, by omega, h⟩

/-- The frame up to the event that completes its prefix: the slot reads the prefix, which leaves
the session `t`, and looks at the part `rest` of the body that is there already. No other way of
splitting off a complete prefix leaves more chunks over than `back`. -/
theorem run_to_prefix (f : CutFrame pb) {s : Session} (h0 : s.bytesReaded = 0)
    (hin : s.sock.incoming = []) :
    ∃ (front back : List (List UInt8)) (rest : List UInt8) (t : Session),
      f.chunks = front ++ back ∧ PREFIX_SIZE ≤ front.flatten.length ∧
      (∀ front' back', f.chunks = front' ++ back' → PREFIX_SIZE ≤ front'.flatten.length →
        back'.length ≤ back.length) ∧
      pb.serialize (.response f.response) = rest ++ back.flatten ∧
      (t.sock.incoming = rest ∧ t.bytesReaded = PREFIX_SIZE ∧
        t.messageSize = (pb.serialize (.response f.response)).length ∧
        t.callbacks = s.callbacks) ∧
      run (Session.readyRead pb) s front =
        if rest.length = (pb.serialize (.response f.response)).length then
          (Session.loadMesg pb t).bind fun s' => some { s' with bytesReaded := 0 }
        else some t := by
  have hframe := f.flatten_chunks
  have hprefix := length_serializePrefix f.byteSize_ne
  have htotal : PREFIX_SIZE ≤ f.chunks.flatten.length := by
    rw [hframe, Protobuf.frame, List.length_append]
    omega
  obtain ⟨front, c, back, hchunks, hfront, hc⟩ := exists_prefix_event htotal
  have hsplit : (front ++ [c]).flatten ++ back.flatten =
      serializePrefix (pb.byteSize (.response f.response)) ++
        pb.serialize (.response f.response) := by
    rw [← Protobuf.frame, ← hframe, hchunks]
    simp
  obtain ⟨rest, hrest, hbody⟩ : ∃ rest,
      (front ++ [c]).flatten = serializePrefix (pb.byteSize (.response f.response)) ++ rest ∧
        pb.serialize (.response f.response) = rest ++ back.flatten := by
    rcases List.append_eq_append_iff.mp hsplit with ⟨as, h1, h2⟩ | ⟨bs, h1, h2⟩
    · have hnil : as = [] := by
        have := congrArg List.length h1
        rw [List.length_append] at this
        exact List.eq_nil_of_length_eq_zero (by omega)
      subst hnil
      exact ⟨[], by rw [h1]; simp, by rw [h2]; rfl⟩
    · exact ⟨bs, h1, h2⟩
  have harr : (s.arrive (serializePrefix (pb.byteSize (.response f.response)) ++
      rest)).sock.incoming = serializePrefix (pb.byteSize (.response f.response)) ++ rest := by
    rw [Session.arrive, hin]
    rfl
  have hslot := Session.onReadyRead_prefix pb (s := s.arrive _) f.byteSize_ne
    (by rw [f.toNat_byteSize]; exact f.size_lt) h0 harr
  refine ⟨front ++ [c], back, rest,
    { (s.arrive (serializePrefix (pb.byteSize (.response f.response)) ++ rest)).prefixTaken with
      messageSize := (pb.byteSize (.response f.response)).toNat },
    by rw [hchunks]; simp, hc, ?_, hbody,
    ⟨?_, rfl, congrArg Nat.cast f.toNat_byteSize, rfl⟩, ?_⟩
  · intro front' back' heq hlen
    by_contra hlt
    -- a longer tail would start no later than `c`, before the prefix is complete
    have hpre : front' <+: front := by
      have h1 : front' <+: f.chunks := ⟨back', heq.symm⟩
      have h2 : front <+: f.chunks := ⟨c :: back, hchunks.symm⟩
      refine List.prefix_of_prefix_length_le h1 h2 ?_
      have e1 := congrArg List.length heq
      have e2 := congrArg List.length hchunks
      rw [List.length_append] at e1 e2
      rw [List.length_cons] at e2
      omega
    obtain ⟨t, rfl⟩ := hpre
    rw [List.flatten_append, List.length_append] at hfront
    omega
  · dsimp only
    rw [Session.prefixTaken, harr, List.drop_left' hprefix]
  · rw [← f.toNat_byteSize, ← hslot, run_append, Session.run_front h0 hin hfront,
      Option.bind_some, run_cons, Session.readyRead, Session.arrive_arrive, ← hrest,
      List.flatten_concat]
    cases Session.onReadyRead pb (s.arrive (front.flatten ++ c)) <;> rfl

/-- Loading the body of the frame delivers it. -/
theorem exists_delivered (f : CutFrame pb) {s t : Session}
    (hin : t.sock.incoming = pb.serialize (.response f.response))
    (hsize : t.messageSize = (pb.serialize (.response f.response)).length)
    (hcb : t.callbacks = s.callbacks) :
    ∃ s', ((Session.loadMesg pb t).bind fun s' => some { s' with bytesReaded := 0 }) = some s' ∧
      f.Delivered s s' := by
  obtain ⟨t', ht', hin', hcb'⟩ := Session.loadMesg_response hin f.size_lt hsize
  exact ⟨{ t' with bytesReaded := 0 }, by rw [ht', Option.bind_some], by rw [hcb', hcb], hin', rfl⟩

theorem delivered_of_promptlyCut (f : CutFrame pb) (hf : f.PromptlyCut) {s : Session}
    (h0 : s.bytesReaded = 0) (hin : s.sock.incoming = []) :
    ∃ s', run (Session.readyRead pb) s f.chunks = some s' ∧ f.Delivered s s' := by
  obtain ⟨front, back, rest, t, hchunks, hfront, -, hbody, ⟨htin, ht9, htsize, htcb⟩, hrun⟩ :=
    f.run_to_prefix h0 hin
  have hback := hf front back hchunks hfront
  rw [hchunks, run_append, hrun]
  match back, hback with
  | [], _ =>
    -- the body came along with the prefix
    have hrest : rest = pb.serialize (.response f.response) := by simpa using hbody.symm
    obtain ⟨s', hs', hdel⟩ := f.exists_delivered (by rw [htin, hrest]) htsize htcb
    rw [if_pos (congrArg _ hrest), hs']
    exact ⟨s', rfl, hdel⟩
  | [d], _ =>
    -- the rest of the body comes in one more chunk
    have hd : 0 < d.length := List.length_pos_of_ne_nil (f.chunks_ne d (by rw [hchunks]; simp))
    have hrest : rest ++ d = pb.serialize (.response f.response) := by simpa using hbody.symm
    have hlen := congrArg List.length hrest
    rw [List.length_append] at hlen
    have harr : (t.arrive d).sock.incoming = pb.serialize (.response f.response) := by
      rw [← hrest, ← htin, Session.arrive]
    obtain ⟨s', hs', hdel⟩ := f.exists_delivered (s := s) (t := t.arrive d) harr htsize htcb
    rw [if_neg (by omega), Option.bind_some, run_cons, Session.readyRead,
      Session.onReadyRead_body (s := t.arrive d) ht9
        (le_of_eq (by rw [harr]; exact htsize)), hs']
    exact ⟨s', rfl, hdel⟩
  | _ :: _ :: _, h => exact absurd h (by simp)

/-- Two chunks after the prefix make the slot forget the prefix, and the response is lost. -/
theorem not_delivered_of_not_promptlyCut (hmin : pb.Minimal) (f : CutFrame pb)
    (hf : ¬ f.PromptlyCut) {s s' : Session} (h0 : s.bytesReaded = 0) (hin : s.sock.incoming = [])
    (hs' : run (Session.readyRead pb) s f.chunks = some s') : ¬ f.Delivered s s' := by
  obtain ⟨front, back, rest, t, hchunks, hfront, hmax, hbody, ⟨htin, ht9, htsize, htcb⟩, hrun⟩ :=
    f.run_to_prefix h0 hin
  obtain ⟨d, e, back', rfl⟩ : ∃ d e back', back = d :: e :: back' := by
    match back with
    | [] | [_] =>
      refine absurd (fun front' back' heq hlen => ?_) hf
      exact le_trans (hmax front' back' heq hlen) (by simp)
    | d :: e :: back' => exact ⟨d, e, back', rfl⟩
  have he : 0 < e.length := List.length_pos_of_ne_nil (f.chunks_ne e (by rw [hchunks]; simp))
  have hlen : (pb.serialize (.response f.response)).length =
      rest.length + (d.length + (e :: back').flatten.length) := by
    rw [hbody, List.length_append, List.flatten_cons, List.length_append]
  have hmore : e.length ≤ (e :: back').flatten.length := by
    rw [List.flatten_cons, List.length_append]
    exact Nat.le_add_right _ _
  have harr : (t.arrive d).sock.incoming.length = rest.length + d.length := by
    rw [← htin, Session.arrive, List.length_append]
  -- the event of `d` takes the branch that resets `bytesReaded`
  have hreset :
      Session.onReadyRead pb (t.arrive d) = some { t.arrive d with bytesReaded := 0 } := by
    refine Session.onReadyRead_body_incomplete ht9 ?_
    rw [harr, show (t.arrive d).messageSize = t.messageSize from rfl, htsize]
    omega
  rw [hchunks, run_append, hrun, if_neg (by omega), Option.bind_some, run_cons, Session.readyRead,
    hreset, Option.bind_some] at hs'
  have hshort : ({ t.arrive d with bytesReaded := 0 } : Session).Short
      (pb.serialize (.response f.response)).length (e :: back').flatten.length :=
    Or.inr ⟨by rw [harr]; omega, rfl⟩
  obtain ⟨late, hlate, hall⟩ := Session.run_short hs' hshort
  rintro ⟨hcb, -, -⟩
  have hone : late = [f.response] := by
    rw [hlate] at hcb
    exact List.append_cancel_left (hcb.trans (congrArg (· ++ [f.response]) htcb.symm))
  obtain ⟨data, hdata, hparse⟩ := hall f.response (by rw [hone]; exact List.mem_singleton_self _)
  have hle := hmin _ _ hparse
  have hexcess := WrappedMessage.excess_le (.response f.response)
  rw [PREFIX_SIZE] at hdata
  omega

theorem delivered_iff_promptlyCut (hmin : pb.Minimal) (f : CutFrame pb) {s : Session}
    (h0 : s.bytesReaded = 0) (hin : s.sock.incoming = []) :
    (∃ s', run (Session.readyRead pb) s f.chunks = some s' ∧ f.Delivered s s') ↔
      f.PromptlyCut := by
  refine ⟨fun ⟨s', hs', hdel⟩ => ?_, fun hf => f.delivered_of_promptlyCut hf h0 hin⟩
  by_contra hf
  exact f.not_delivered_of_not_promptlyCut hmin hf h0 hin hs' hdel

/-- **Reassembly.** The responses of a list of frames all reach their callback, each in the event
of its last chunk, exactly when every frame is promptly cut. -/
theorem delivers_iff_promptlyCut (hmin : pb.Minimal) (fs : List (CutFrame pb)) :
    Delivers pb Session.initial fs ↔ ∀ f ∈ fs, f.PromptlyCut := by
  have key : ∀ (fs : List (CutFrame pb)) (s : Session), s.bytesReaded = 0 →
      s.sock.incoming = [] → (Delivers pb s fs ↔ ∀ f ∈ fs, f.PromptlyCut) := by
    intro fs
    induction fs with
    | nil => simp [Delivers]
    | cons f fs ih =>
      intro s h0 hin
      rw [List.forall_mem_cons, Delivers]
      constructor
      · rintro ⟨s', hs', hdel, hrest⟩
        exact ⟨(f.delivered_iff_promptlyCut hmin h0 hin).mp ⟨s', hs', hdel⟩,
          (ih s' hdel.2.2 hdel.2.1).mp hrest⟩
      · rintro ⟨hf, hrest⟩
        obtain ⟨s', hs', hdel⟩ := (f.delivered_iff_promptlyCut hmin h0 hin).mpr hf
        exact ⟨s', hs', hdel, (ih s' hdel.2.2 hdel.2.1).mpr hrest⟩
  exact key fs Session.initial rfl rfl

/-- An accepted status whose body arrives with the last byte of its prefix. -/
def acceptedInTwo : CutFrame proto3 where
  response := .statusResponse .accepted
  chunks := [[0x09, 4, 0, 0, 0, 0, 0, 0], [0, 0x0A, 0x02, 0x0A, 0x00]]
  size_pos := by decide
  size_lt := by decide
  chunks_ne := by decide
  flatten_chunks := by decide

theorem delivers_acceptedInTwo :
    proto3.Minimal ∧ Delivers proto3 Session.initial [acceptedInTwo, acceptedInTwo] := by
  have hcut : acceptedInTwo.PromptlyCut := by
    intro front back heq hfront
    match front with
    | [] => exact absurd hfront (by decide)
    | c :: front =>
      have hlen := congrArg List.length heq
      rw [List.length_append, List.length_cons] at hlen
      change 2 = _ at hlen
      omega
  exact ⟨proto3_minimal, (delivers_iff_promptlyCut proto3_minimal _).mpr (by simp [hcut])⟩

/-- The same frame in four chunks. -/
def acceptedInFour : CutFrame proto3 where
  response := .statusResponse .accepted
  chunks := [[0x09, 4, 0, 0, 0, 0, 0, 0, 0], [0x0A], [0x02], [0x0A, 0x00]]
  size_pos := by decide
  size_lt := by decide
  chunks_ne := by decide
  flatten_chunks := by decide

/-- After the fourth chunk the callback has not been invoked, and the body lies unread in the
socket. -/
theorem not_delivers_acceptedInFour :
    (run (Session.readyRead proto3) Session.initial acceptedInFour.chunks).map
      (fun s => (s.callbacks, s.sock.incoming)) = some ([], [0x0A, 0x02, 0x0A, 0x00]) ∧
    ¬ Delivers proto3 Session.initial [acceptedInFour] := by
  have hrun : (run (Session.readyRead proto3) Session.initial acceptedInFour.chunks).map
      (fun s => (s.callbacks, s.sock.incoming)) = some ([], [0x0A, 0x02, 0x0A, 0x00]) := by
    decide
  refine ⟨hrun, ?_⟩
  rintro ⟨s', hs', ⟨hcb, -, -⟩, -⟩
  rw [hs', Option.map_some, Option.some_inj, hcb] at hrun
  have hnil : Session.initial.callbacks ++ [acceptedInFour.response] = [] :=
    congrArg Prod.fst hrun
  exact absurd hnil (by decide)

end CutFrame

end Elegram
