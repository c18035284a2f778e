import Elegram.Protocol.Generated

/-!
# What the generated parsers compute

Two results about the parser of `WrappedMessage`, whatever the readers of the runtime do within
their documentation. The shortcuts it takes make no difference (`parseFromArray_hints`). And on
serialised messages in a row it computes `MergeFrom`, while fields that no case of its switch tests
may stand between them (`parseFromArray_pieces`). The second rests on one step for each class:
reading a serialised message of the class is merging it (`plain_encode`).
-/

namespace Elegram

open Wire TagLoop CodedInputStream

section

variable (rt : CodedInputStream) (hints : Hints rt.source) {rest : List UInt8} {budget : ℕ}

/-! ### Shortcuts -/

/-- **The shortcuts of the generated parsers make no difference**: neither what the stream is able
to tell about the next tag nor whether it notices its end. -/
theorem WrappedMessage.parseFromArray_hints (hints' : Hints rt.source) :
    parseFromArray rt hints = parseFromArray rt hints' := by
  -- every class's loop is the plain one, which asks for no hints
  simp only [parseFromArray, mergePartialFromCodedStream, parse_eq_plain, fields,
    Response.mergePartialFromCodedStream, Request.mergePartialFromCodedStream, Response.fields,
    Request.fields, RegisterRequest.mergePartialFromCodedStream,
    LoginRequest.mergePartialFromCodedStream, AllMyChatsRequest.mergePartialFromCodedStream,
    AllMyContactsRequest.mergePartialFromCodedStream, MessagesRequest.mergePartialFromCodedStream,
    SendMessageRequest.mergePartialFromCodedStream, SendMessageRequest.fields,
    MessageToSend.mergePartialFromCodedStream, AddContactRequest.mergePartialFromCodedStream,
    CreateChatRequest.mergePartialFromCodedStream, StatusResponse.mergePartialFromCodedStream,
    ChatsResponse.mergePartialFromCodedStream, ContactsResponse.mergePartialFromCodedStream,
    MessagesResponse.mergePartialFromCodedStream, LoginResponse.mergePartialFromCodedStream,
    LoginResponse.fields, Chat.mergePartialFromCodedStream, Contact.mergePartialFromCodedStream,
    MessageToRecieve.mergePartialFromCodedStream]

/-! ### Reading a serialised message -/

section Scalars

variable {rt} {M : Type} {table : Table rt.source M} {m : M}

/-- A string of a short message is short. -/
theorem short_of_mem {vs : List Scalar} {s : String} (hvs : Short (encodeScalars vs))
    (h : .string s ∈ vs) : Short (utf8 s) :=
  (length_utf8_le_of_mem h).trans_lt hvs

/-- The fields of a record are read one by one. -/
theorem encodeScalars_append (v : Scalar) (vs : List Scalar) (number : ℕ) :
    encodeFields (scalarFields number (v :: vs)) ++ rest =
      encodeFields (v.fields number) ++ (encodeFields (scalarFields (number + 1) vs) ++ rest) := by
  rw [scalarFields, encodeFields_append, List.append_assoc]

/-- The classes with the fields `uint64 .. = 1` and `string .. = 2`. -/
theorem plain_idString {setId : UInt64 → M → M} {setString : String → M → M}
    {validId : ValidTag 1 8} {validString : ValidTag 2 18}
    (hentries : table.entries = [rt.uint64 1 8 validId setId, rt.string 2 18 validString setString])
    {id : UInt64} {s : String} (hs : Short (encodeIdString id s)) :
    plain table m ⟨encodeIdString id s ++ rest, budget⟩ =
      plain table (if s = "" then if id = 0 then m else setId id m
        else setString s (if id = 0 then m else setId id m)) ⟨rest, budget⟩ := by
  have hid : rt.uint64 1 8 validId setId ∈ table.entries := by simp [hentries]
  have hstring : rt.string 2 18 validString setString ∈ table.entries := by simp [hentries]
  have hshort := short_of_mem hs (s := s) (by simp)
  rw [encodeIdString, encodeScalars, encodeScalars_append, encodeScalars_append, scalarFields,
    encodeFields_nil, List.nil_append, plain_uint64 hid rfl, plain_string hstring rfl hshort]

/-- The classes whose only field is `uint64 .. = 1`. -/
theorem plain_id {set : UInt64 → M → M} {valid : ValidTag 1 8}
    (hentries : table.entries = [rt.uint64 1 8 valid set]) {id : UInt64} :
    plain table m ⟨encodeId id ++ rest, budget⟩ =
      plain table (if id = 0 then m else set id m) ⟨rest, budget⟩ := by
  have hid : rt.uint64 1 8 valid set ∈ table.entries := by simp [hentries]
  rw [encodeId, encodeScalars, encodeScalars_append, scalarFields, encodeFields_nil,
    List.nil_append, plain_uint64 hid rfl]

/-- Where the plain loop reaches the end, the generated parser succeeds. -/
theorem parse_of_plain {hints : Hints rt.source} {m' : M} {data : List UInt8}
    (h : plain table m ⟨data ++ [], budget⟩ = plain table m' ⟨[], budget⟩) :
    parse hints table m ⟨data, budget⟩ = some (m', true) := by
  rw [List.append_nil] at h
  rw [parse_eq_plain, h, plain_end]

end Scalars

/-- A string that is not written is empty, and `MergeFrom` leaves it as it was. -/
theorem RegisterRequest.plain_encode {m n : RegisterRequest} (hn : Short n.encode) :
    plain (fields rt) m ⟨n.encode ++ rest, budget⟩ =
      plain (fields rt) (m.mergeFrom n) ⟨rest, budget⟩ := by
  have hname := short_of_mem hn (s := n.name) (by simp)
  have hemail := short_of_mem hn (s := n.email) (by simp)
  have hpassword := short_of_mem hn (s := n.password) (by simp)
  rw [encode, encodeScalars, encodeScalars_append, encodeScalars_append, encodeScalars_append,
    scalarFields, encodeFields_nil, List.nil_append,
    plain_string (List.mem_of_getElem? (i := 0) rfl) rfl hname,
    plain_string (List.mem_of_getElem? (i := 1) rfl) rfl hemail,
    plain_string (List.mem_of_getElem? (i := 2) rfl) rfl hpassword, mergeFrom]
  congr 1
  split_ifs <;> rfl

theorem LoginRequest.plain_encode {m n : LoginRequest} (hn : Short n.encode) :
    plain (fields rt) m ⟨n.encode ++ rest, budget⟩ =
      plain (fields rt) (m.mergeFrom n) ⟨rest, budget⟩ := by
  have hemail := short_of_mem hn (s := n.email) (by simp)
  have hpassword := short_of_mem hn (s := n.password) (by simp)
  rw [encode, encodeScalars, encodeScalars_append, encodeScalars_append, scalarFields,
    encodeFields_nil, List.nil_append,
    plain_string (List.mem_of_getElem? (i := 0) rfl) rfl hemail,
    plain_string (List.mem_of_getElem? (i := 1) rfl) rfl hpassword, mergeFrom]
  congr 1
  split_ifs <;> rfl

theorem MessagesRequest.plain_encode {m n : MessagesRequest} :
    plain (fields rt) m ⟨encodeId n.chatId ++ rest, budget⟩ =
      plain (fields rt) (m.mergeFrom n) ⟨rest, budget⟩ := by
  rw [plain_id rfl, mergeFrom]
  congr 1
  split_ifs <;> rfl

theorem MessageToSend.plain_encode {m n : MessageToSend} (hn : Short n.encode) :
    plain (fields rt) m ⟨n.encode ++ rest, budget⟩ =
      plain (fields rt) (m.mergeFrom n) ⟨rest, budget⟩ := by
  rw [encode, plain_idString rfl hn, mergeFrom]
  congr 1
  split_ifs <;> rfl

/-- The message that a field of a `oneof` or of a submessage contains. -/
theorem short_of_encodeOneof {number : ℕ} {data : List UInt8}
    (h : Short (encodeOneof (some (number, data)))) : Short data :=
  length_lt_of_encodeOneof h

/-- A submessage is read into the one that is there, with one level less of the recursion budget. -/
theorem SendMessageRequest.plain_encode {m n : SendMessageRequest} (hn : Short n.encode) :
    plain (fields rt hints) m ⟨n.encode ++ rest, budget + 1⟩ =
      plain (fields rt hints) (m.mergeFrom n) ⟨rest, budget + 1⟩ := by
  obtain ⟨mesg⟩ := n
  cases mesg with
  | none => rfl
  | some mesg =>
    have hdata : Short mesg.encode := short_of_encodeOneof hn
    exact plain_message (T := fields rt hints) (List.mem_of_getElem? (i := 0) rfl) rfl hdata
      (parse_of_plain (MessageToSend.plain_encode rt hdata))

theorem AddContactRequest.plain_encode {m n : AddContactRequest} (hn : Short n.encode) :
    plain (fields rt) m ⟨n.encode ++ rest, budget⟩ =
      plain (fields rt) (m.mergeFrom n) ⟨rest, budget⟩ := by
  have hemail := short_of_mem hn (s := n.email) (by simp)
  rw [encode, encodeScalars, encodeScalars_append, scalarFields, encodeFields_nil, List.nil_append,
    plain_string (List.mem_of_getElem? (i := 0) rfl) rfl hemail, mergeFrom]
  congr 1
  split_ifs <;> rfl

theorem CreateChatRequest.plain_encode {m n : CreateChatRequest} :
    plain (fields rt) m ⟨encodeId n.friendId ++ rest, budget⟩ =
      plain (fields rt) (m.mergeFrom n) ⟨rest, budget⟩ := by
  rw [plain_id rfl, mergeFrom]
  congr 1
  split_ifs <;> rfl

/-- The case that is written becomes the case of the message. -/
theorem Request.plain_encode {m n : Request} (hn : Short n.encode) :
    plain (fields rt hints) m ⟨n.encode ++ rest, budget + 2⟩ =
      plain (fields rt hints) (m.mergeFrom n) ⟨rest, budget + 2⟩ := by
  cases n with
  | registerRequest n =>
    have hdata : Short n.encode := short_of_encodeOneof hn
    exact plain_message (T := fields rt hints) (List.mem_of_getElem? (i := 0) rfl) rfl hdata
      (parse_of_plain (RegisterRequest.plain_encode rt hdata))
  | loginRequest n =>
    have hdata : Short n.encode := short_of_encodeOneof hn
    exact plain_message (T := fields rt hints) (List.mem_of_getElem? (i := 1) rfl) rfl hdata
      (parse_of_plain (LoginRequest.plain_encode rt hdata))
  | chatsRequest =>
    exact plain_message (T := fields rt hints) (List.mem_of_getElem? (i := 2) rfl) rfl
      (short_of_encodeOneof hn) (parse_of_plain rfl)
  | contactsRequest =>
    exact plain_message (T := fields rt hints) (List.mem_of_getElem? (i := 3) rfl) rfl
      (short_of_encodeOneof hn) (parse_of_plain rfl)
  | messagesRequest n =>
    exact plain_message (T := fields rt hints) (List.mem_of_getElem? (i := 4) rfl) rfl
      (short_of_encodeOneof hn) (parse_of_plain (MessagesRequest.plain_encode rt))
  | sendMesgRequest n =>
    have hdata : Short n.encode := short_of_encodeOneof hn
    exact plain_message (T := fields rt hints) (List.mem_of_getElem? (i := 5) rfl) rfl hdata
      (parse_of_plain (SendMessageRequest.plain_encode rt hints hdata))
  | addContactRequest n =>
    have hdata : Short n.encode := short_of_encodeOneof hn
    exact plain_message (T := fields rt hints) (List.mem_of_getElem? (i := 6) rfl) rfl hdata
      (parse_of_plain (AddContactRequest.plain_encode rt hdata))
  | createChatRequest n =>
    exact plain_message (T := fields rt hints) (List.mem_of_getElem? (i := 7) rfl) rfl
      (short_of_encodeOneof hn) (parse_of_plain (CreateChatRequest.plain_encode rt))
  | msgNotSet => rfl

/-- A result that is not written is the default. -/
theorem StatusResponse.plain_encode {m n : StatusResult} :
    plain (fields rt) m ⟨n.encode ++ rest, budget⟩ =
      plain (fields rt) (mergeFrom m n) ⟨rest, budget⟩ := by
  rw [StatusResult.encode, mergeFrom]
  split_ifs
  · rfl
  · rw [encodeFields_cons, encodeFields_nil, List.append_nil, encodeField]
    exact plain_primitive (T := fields rt) (List.mem_of_getElem? (i := 0) rfl)
      (rt.readEnum_signExtend n.value rest)

theorem Chat.plain_encode {m n : Chat} (hn : Short n.encode) :
    plain (fields rt) m ⟨n.encode ++ rest, budget⟩ =
      plain (fields rt) (m.mergeFrom n) ⟨rest, budget⟩ := by
  rw [encode, plain_idString rfl hn, mergeFrom]
  congr 1
  split_ifs <;> rfl

theorem Contact.plain_encode {m n : Contact} (hn : Short n.encode) :
    plain (fields rt) m ⟨n.encode ++ rest, budget⟩ =
      plain (fields rt) (m.mergeFrom n) ⟨rest, budget⟩ := by
  have hname := short_of_mem hn (s := n.name) (by simp)
  have hemail := short_of_mem hn (s := n.email) (by simp)
  rw [encode, encodeScalars, encodeScalars_append, encodeScalars_append, encodeScalars_append,
    scalarFields, encodeFields_nil, List.nil_append,
    plain_uint64 (List.mem_of_getElem? (i := 0) rfl) rfl,
    plain_string (List.mem_of_getElem? (i := 1) rfl) rfl hname,
    plain_string (List.mem_of_getElem? (i := 2) rfl) rfl hemail, mergeFrom]
  congr 1
  split_ifs <;> rfl

theorem MessageToRecieve.plain_encode {m n : MessageToRecieve} (hn : Short n.encode) :
    plain (fields rt) m ⟨n.encode ++ rest, budget⟩ =
      plain (fields rt) (m.mergeFrom n) ⟨rest, budget⟩ := by
  rw [encode, plain_idString rfl hn, mergeFrom]
  congr 1
  split_ifs <;> rfl

/-- The items of a repeated field are appended. -/
theorem plain_encodeRepeated {V : Type} {new : V} {merge : V → Input → Option (V × Bool)}
    {encode : V → List UInt8} {items : List V} (hshort : Short (encodeRepeated encode items))
    (hitem : ∀ v, Short (encode v) → merge new ⟨encode v, budget⟩ = some (v, true))
    (before : List V) :
    plain (repeatedFields rt new merge) before ⟨encodeRepeated encode items ++ rest, budget + 1⟩ =
      plain (repeatedFields rt new merge) (before ++ items) ⟨rest, budget + 1⟩ := by
  induction items generalizing before with
  | nil => rw [List.append_nil]; rfl
  | cons v items ih =>
    have hsplit : encodeRepeated encode (v :: items) =
        encodeFields [⟨1, .bytes (encode v)⟩] ++ encodeRepeated encode items :=
      encodeFields_append [⟨1, .bytes (encode v)⟩] _
    rw [hsplit] at hshort ⊢
    have hlen := hshort
    rw [Short, List.length_append] at hlen
    have hone : Short (encodeOneof (some (1, encode v))) :=
      lt_of_le_of_lt (Nat.le_add_right _ _) hlen
    have hv := short_of_encodeOneof hone
    have hitems : Short (encodeRepeated encode items) :=
      lt_of_le_of_lt (Nat.le_add_left _ _) hlen
    rw [List.append_assoc, plain_message (T := repeatedFields rt new merge)
        (List.mem_of_getElem? (i := 0) rfl) rfl hv (hitem v hv),
      ih hitems, List.append_assoc, List.singleton_append]

/-- A profile is read into the one that is there. -/
theorem LoginResponse.plain_encode {m n : Option Contact} (hn : Short (encodeProfile n)) :
    plain (fields rt hints) m ⟨encodeProfile n ++ rest, budget + 1⟩ =
      plain (fields rt hints) (mergeFrom m n) ⟨rest, budget + 1⟩ := by
  cases n with
  | none => rfl
  | some profile =>
    have hdata : Short profile.encode := short_of_encodeOneof hn
    exact plain_message (T := fields rt hints) (List.mem_of_getElem? (i := 0) rfl) rfl hdata
      (parse_of_plain (Contact.plain_encode rt hdata))

/-- What a repeated field merges is appended, where the parser of an item reads it into a new
message. -/
theorem parse_encodeRepeated {V : Type} {fields : Table rt.source V} {new : V}
    {encode : V → List UInt8} {mergeFrom : V → V → V} {before items : List V}
    (hitem : ∀ v, Short (encode v) → plain fields new ⟨encode v ++ [], budget⟩ =
      plain fields (mergeFrom new v) ⟨[], budget⟩)
    (hnew : ∀ v, mergeFrom new v = v) (hshort : Short (encodeRepeated encode items)) :
    parse hints (repeatedFields rt new (parse hints fields)) before
      ⟨encodeRepeated encode items, budget + 1⟩ = some (before ++ items, true) := by
  refine parse_of_plain (plain_encodeRepeated rt hshort (fun v hv => ?_) before)
  rw [parse_of_plain (hitem v hv), hnew]

/-! `CopyFrom` clears the message and merges the source into it, which makes them equal. -/

/-- A field with its default value is not taken from the source. -/
theorem ite_eq_left {α : Type} [DecidableEq α] (x d : α) : (if x = d then d else x) = x := by
  split_ifs with h
  · exact h.symm
  · rfl

/-- A new message becomes the one that is merged into it. -/
theorem RegisterRequest.mergeFrom_default (n : RegisterRequest) : default.mergeFrom n = n := by
  simp only [mergeFrom, default, ite_eq_left]

theorem LoginRequest.mergeFrom_default (n : LoginRequest) : default.mergeFrom n = n := by
  simp only [mergeFrom, default, ite_eq_left]

theorem MessagesRequest.mergeFrom_default (n : MessagesRequest) : default.mergeFrom n = n := by
  simp only [mergeFrom, default, ite_eq_left]

theorem MessageToSend.mergeFrom_default (n : MessageToSend) : default.mergeFrom n = n := by
  simp only [mergeFrom, default, ite_eq_left]

/-- The message within is merged into a new one. -/
theorem SendMessageRequest.mergeFrom_default (n : SendMessageRequest) :
    default.mergeFrom n = n := by
  obtain ⟨_ | mesg⟩ := n
  · rfl
  · exact congrArg (fun mesg => mk (some mesg)) mesg.mergeFrom_default

theorem AddContactRequest.mergeFrom_default (n : AddContactRequest) :
    default.mergeFrom n = n := by
  simp only [mergeFrom, default, ite_eq_left]

theorem CreateChatRequest.mergeFrom_default (n : CreateChatRequest) :
    default.mergeFrom n = n := by
  simp only [mergeFrom, default, ite_eq_left]

/-- The case of the source is set, and what is merged into it was new. -/
theorem Request.mergeFrom_msgNotSet (n : Request) : msgNotSet.mergeFrom n = n := by
  cases n with
  | registerRequest n => exact congrArg registerRequest n.mergeFrom_default
  | loginRequest n => exact congrArg loginRequest n.mergeFrom_default
  | messagesRequest n => exact congrArg messagesRequest n.mergeFrom_default
  | sendMesgRequest n => exact congrArg sendMesgRequest n.mergeFrom_default
  | addContactRequest n => exact congrArg addContactRequest n.mergeFrom_default
  | createChatRequest n => exact congrArg createChatRequest n.mergeFrom_default
  | _ => rfl

theorem StatusResponse.mergeFrom_accepted (n : StatusResult) : mergeFrom .accepted n = n :=
  congrArg StatusResult.mk (ite_eq_left n.value 0)

theorem Chat.mergeFrom_default (n : Chat) : default.mergeFrom n = n := by
  simp only [mergeFrom, default, ite_eq_left]

theorem Contact.mergeFrom_default (n : Contact) : default.mergeFrom n = n := by
  simp only [mergeFrom, default, ite_eq_left]

theorem MessageToRecieve.mergeFrom_default (n : MessageToRecieve) : default.mergeFrom n = n := by
  simp only [mergeFrom, default, ite_eq_left]

theorem LoginResponse.mergeFrom_none (n : Option Contact) : mergeFrom none n = n := by
  cases n with
  | none => rfl
  | some profile => exact congrArg some profile.mergeFrom_default

/-- The same for a `Response`, where lists are appended to empty ones. -/
theorem Response.mergeFrom_msgNotSet (n : Response) : msgNotSet.mergeFrom n = n := by
  cases n with
  | statusResponse n => exact congrArg statusResponse (StatusResponse.mergeFrom_accepted n)
  | loginResponse n => exact congrArg loginResponse (LoginResponse.mergeFrom_none n)
  | _ => rfl

/-- `CopyFrom` of a frame. -/
theorem WrappedMessage.mergeFrom_msgNotSet (n : WrappedMessage) : msgNotSet.mergeFrom n = n := by
  cases n with
  | response n => exact congrArg response n.mergeFrom_msgNotSet
  | request n => exact congrArg request n.mergeFrom_msgNotSet
  | msgNotSet => rfl

/-- The case that is written becomes the case of the message, and lists are appended. -/
theorem Response.plain_encode {m n : Response} (hn : Short n.encode) :
    plain (fields rt hints) m ⟨n.encode ++ rest, budget + 2⟩ =
      plain (fields rt hints) (m.mergeFrom n) ⟨rest, budget + 2⟩ := by
  cases n with
  | statusResponse result =>
    exact plain_message (T := fields rt hints) (List.mem_of_getElem? (i := 0) rfl) rfl
      (short_of_encodeOneof hn) (parse_of_plain (StatusResponse.plain_encode rt))
  | chatsResponse chats =>
    have hdata : Short (encodeRepeated Chat.encode chats) := short_of_encodeOneof hn
    exact plain_message (T := fields rt hints) (List.mem_of_getElem? (i := 1) rfl) rfl hdata
      (parse_encodeRepeated rt hints (fun _ h => Chat.plain_encode rt h) Chat.mergeFrom_default
        hdata)
  | contactsResponse contacts =>
    have hdata : Short (encodeRepeated Contact.encode contacts) := short_of_encodeOneof hn
    exact plain_message (T := fields rt hints) (List.mem_of_getElem? (i := 2) rfl) rfl hdata
      (parse_encodeRepeated rt hints (fun _ h => Contact.plain_encode rt h)
        Contact.mergeFrom_default hdata)
  | messagesResponse messages =>
    have hdata : Short (encodeRepeated MessageToRecieve.encode messages) :=
      short_of_encodeOneof hn
    exact plain_message (T := fields rt hints) (List.mem_of_getElem? (i := 3) rfl) rfl hdata
      (parse_encodeRepeated rt hints (fun _ h => MessageToRecieve.plain_encode rt h)
        MessageToRecieve.mergeFrom_default hdata)
  | loginResponse profile =>
    have hdata : Short (encodeProfile profile) := short_of_encodeOneof hn
    exact plain_message (T := fields rt hints) (List.mem_of_getElem? (i := 4) rfl) rfl hdata
      (parse_of_plain (LoginResponse.plain_encode rt hints hdata))
  | msgNotSet => rfl

/-- **Reading a serialised message is merging it.** -/
theorem WrappedMessage.plain_encode {m n : WrappedMessage} (hn : Short n.encode) :
    plain (fields rt hints) m ⟨n.encode ++ rest, budget + 3⟩ =
      plain (fields rt hints) (m.mergeFrom n) ⟨rest, budget + 3⟩ := by
  cases n with
  | response mesg =>
    have hdata : Short mesg.encode := short_of_encodeOneof hn
    exact plain_message (T := fields rt hints) (List.mem_of_getElem? (i := 0) rfl) rfl hdata
      (parse_of_plain (Response.plain_encode rt hints hdata))
  | request mesg =>
    have hdata : Short mesg.encode := short_of_encodeOneof hn
    exact plain_message (T := fields rt hints) (List.mem_of_getElem? (i := 1) rfl) rfl hdata
      (parse_of_plain (Request.plain_encode rt hints hdata))
  | msgNotSet => rfl

/-! ### Inputs of several pieces -/

/-- A piece of an input: a serialised message, or a field that the classes do not have. -/
inductive Piece
  | message (m : WrappedMessage)
  | unknown (f : Field)

namespace Piece

/-- What is written for a piece. -/
def bytes : Piece → List UInt8
  | message m => m.encode
  | unknown f => encodeField f

/-- No case of the switch of `WrappedMessage` tests the tag of an unknown field. -/
def Valid : Piece → Prop
  | message m => Short m.encode
  | unknown f => f.Fits ∧ 0 < f.number ∧ (∀ data, f.payload = .bytes data → Short data) ∧
      f.tag ≠ 10 ∧ f.tag ≠ 18

/-- What a piece does to the message that was read before it. -/
def merge (m : WrappedMessage) : Piece → WrappedMessage
  | message source => m.mergeFrom source
  | unknown _ => m

end Piece

/-- A piece is read as it is merged: a field with another tag is skipped. -/
theorem WrappedMessage.plain_piece {m : WrappedMessage} {p : Piece} (hp : p.Valid) :
    plain (fields rt hints) m ⟨p.bytes ++ rest, budget + 3⟩ =
      plain (fields rt hints) (p.merge m) ⟨rest, budget + 3⟩ := by
  cases p with
  | message source => exact plain_encode rt hints hp
  | unknown f =>
    obtain ⟨hfits, hnum, hdata, hresponse, hrequest⟩ := hp
    refine plain_unknown hfits hnum hdata fun e he => ?_
    rcases List.mem_pair.mp he with rfl | rfl
    · exact hresponse.symm
    · exact hrequest.symm

/-- The pieces are read one after the other, by induction. -/
theorem WrappedMessage.plain_pieces {ps : List Piece} (hps : ∀ p ∈ ps, p.Valid)
    (m : WrappedMessage) :
    plain (fields rt hints) m ⟨ps.flatMap Piece.bytes, budget + 3⟩ =
      some (ps.foldl Piece.merge m, true) := by
  induction ps generalizing m with
  | nil => exact plain_end
  | cons p ps ih =>
    rw [List.flatMap_cons, List.foldl_cons, plain_piece rt hints (hps p List.mem_cons_self)]
    exact ih (fun q hq => hps q (List.mem_cons_of_mem p hq)) _

/-- Where the plain loop succeeds at the end, so does `ParseFromArray`. -/
theorem WrappedMessage.parseFromArray_of_plain {data : List UInt8} {m : WrappedMessage}
    (h : plain (fields rt hints) msgNotSet ⟨data, RECURSION_LIMIT⟩ = some (m, true)) :
    parseFromArray rt hints data = some m := by
  rw [parseFromArray, Elegram.parseFromArray, mergePartialFromCodedStream, parse_eq_plain, h,
    Option.bind_some, if_pos rfl]

/-- **Merging.** What the parser reads from serialised messages and unknown fields in a row is what
`MergeFrom` makes of the messages, one after the other. -/
theorem WrappedMessage.parseFromArray_pieces {ps : List Piece} (hps : ∀ p ∈ ps, p.Valid) :
    parseFromArray rt hints (ps.flatMap Piece.bytes) = some (ps.foldl Piece.merge .msgNotSet) :=
  parseFromArray_of_plain rt hints (plain_pieces rt hints hps msgNotSet)

/-- The chats of two responses come together, and the field between them is skipped. -/
theorem WrappedMessage.parseFromArray_twoResponses :
    parseFromArray wireStream (.never _)
        ([Piece.message (.response (.chatsResponse [⟨1, ""⟩])), .unknown ⟨3, .varint 5⟩,
          .message (.response (.chatsResponse [⟨2, ""⟩]))].flatMap Piece.bytes) =
      some (.response (.chatsResponse [⟨1, ""⟩, ⟨2, ""⟩])) := by
  refine parseFromArray_pieces wireStream (.never _) ?_
  simp only [List.forall_mem_cons, List.not_mem_nil, false_imp_iff, implies_true, and_true]
  refine ⟨?_, ⟨⟨by decide, by decide⟩, by decide, fun data h => (by cases h), by decide⟩, ?_⟩
  all_goals
    change List.length _ < 2 ^ 31
    decide

/-- A message is read back from its serialisation. -/
theorem WrappedMessage.parseFromArray_encode {m : WrappedMessage} (hm : Short m.encode) :
    parseFromArray rt hints m.encode = some m := by
  have hplain : plain (fields rt hints) msgNotSet ⟨m.encode ++ [], RECURSION_LIMIT⟩ =
      plain (fields rt hints) (msgNotSet.mergeFrom m) ⟨[], RECURSION_LIMIT⟩ :=
    plain_encode rt hints hm
  rw [List.append_nil, plain_end, mergeFrom_msgNotSet] at hplain
  exact parseFromArray_of_plain rt hints hplain

/-- The number that is announced is read back. -/
theorem LengthPrefix.parseFromArray_serializePrefix {n : UInt64} (hn : n ≠ 0) :
    parseFromArray rt hints (serializePrefix n) = some n := by
  have hplain : plain (fields rt) 0 ⟨varint 9 ++ fixed64 n ++ [], RECURSION_LIMIT⟩ =
      plain (fields rt) n ⟨[], RECURSION_LIMIT⟩ :=
    plain_primitive (T := fields rt) (List.mem_of_getElem? (i := 0) rfl)
      (rt.reads_fixed64.read_write trivial [])
  rw [serializePrefix, if_neg hn]
  change (parse hints (fields rt) 0 ⟨varint 9 ++ fixed64 n, RECURSION_LIMIT⟩).bind _ = _
  rw [parse_of_plain hplain]
  rfl

end

end Elegram
