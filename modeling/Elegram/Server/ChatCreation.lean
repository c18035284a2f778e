import Elegram.Server.StorageMachine

/-!
# Creating a chat, all or nothing

`create_chat` inserts the chat before it knows whether there is a friend to talk to. What stops an
unknown friend is only that reading the name of nobody throws, and then the transaction is never
committed. `createChat_allOrNothing` says exactly when a call succeeds, what it has added then, and
that otherwise nothing has changed.
-/

namespace Elegram

open ReadCommitted Transition

/-- The constraints of `gen_schema.sql` together with the two keys, which their sequences are ahead
of. -/
structure Tables.Schema (t : Tables) (seq : Sequences) : Prop extends t.Integrity where
  clientKey : (t.client.map ClientRow.id).Nodup
  chatKey : t.chat.Nodup
  clientSerial : ∀ row ∈ t.client, row.id.val < seq.client
  chatSerial : ∀ chat ∈ t.chat, chat.val < seq.chat

/-- The tables satisfy the schema whatever the storage connections do. -/
theorem StorageMachine.reachable_schema {hashPassword : String → List UInt8} {m : StorageMachine}
    (h : Reachable (Machine.step (storageBody hashPassword)) (Machine.initial .initial) m) :
    m.tables.Schema m.sequences := by
  have hclient := Numbering.fresh_of_reachable (N := clientNumbering) h
  have hchat := Numbering.fresh_of_reachable (N := chatNumbering) h
  refine { reachable_integrity h with
    clientKey := hclient.nodup
    chatKey := hchat.nodup
    clientSerial := fun row hrow => hclient.val_lt (List.mem_map_of_mem hrow)
    chatSerial := fun chat hmem => hchat.val_lt hmem }

section AllOrNothing

variable {t : Tables} {seq : Sequences} {user : ClientRow} {friendId : UInt64}
  {choices : ℕ → Choice}

/-- Nothing fails in a call of `create_chat`: none of its nine actions does of itself, and there is
a number left for the chat. -/
def NothingFails (seq : Sequences) (choices : ℕ → Choice) : Prop :=
  Calm 9 choices ∧ seq.chat < 2 ^ 31

/-- What comes of a call of `create_chat`, when `ok` is its result and `after` the database that it
leaves. -/
structure AllOrNothing (t : Tables) (seq : Sequences) (user : ClientRow) (friendId : UInt64)
    (choices : ℕ → Choice) (ok : Bool) (after : Tables) : Prop where
  success : ok = true ↔ NothingFails seq choices ∧
    ∃ friend ∈ t.client, friend.id.toUInt64 = friendId ∧
      ∀ chat, ¬ (t.Member user.id chat ∧ t.Member friend.id chat)
  all : ok = true → ∀ friend ∈ t.client, friend.id.toUInt64 = friendId →
    ∃ chat ∉ t.chat, after = t + chatRows user.id friend.id chat user.name friend.name
  nothing : ok = false → after = t

/-- A registered user can chat with those who are registered and whom he has no chat with. -/
theorem exists_canChat_iff (huser : user ∈ t.client) :
    (∃ a b, PgInt.ofUInt64? user.id.toUInt64 = some a ∧ PgInt.ofUInt64? friendId = some b ∧
      t.CanChat a b) ↔
    ∃ friend ∈ t.client, friend.id.toUInt64 = friendId ∧
      ∀ chat, ¬ (t.Member user.id chat ∧ t.Member friend.id chat) := by
  constructor
  · rintro ⟨a, b, ha, hb, hcommon, -, hfriend⟩
    obtain rfl : user.id = a := Option.some_inj.mp ((PgInt.ofUInt64?_toUInt64 _).symm.trans ha)
    obtain ⟨friend, hmem, hid⟩ := List.any_eq_true.mp hfriend
    obtain rfl : friend.id = b := of_decide_eq_true hid
    exact ⟨friend, hmem, PgInt.toUInt64_of_eq_some hb, Tables.commonChats_eq_nil_iff.mp hcommon⟩
  · rintro ⟨friend, hmem, rfl, hnone⟩
    exact ⟨user.id, friend.id, PgInt.ofUInt64?_toUInt64 _, PgInt.ofUInt64?_toUInt64 _,
      Tables.commonChats_eq_nil_iff.mpr hnone, Tables.isRegistered_of_mem huser,
      Tables.isRegistered_of_mem hmem⟩

/-- **All or nothing.** -/
theorem createChat_allOrNothing (h : t.Schema seq) (huser : user ∈ t.client) (friendId : UInt64)
    (choices : ℕ → Choice) :
    (createChat user.id.toUInt64 user.name friendId).Ensures
      (fun ok c => AllOrNothing t seq user friendId choices ok c.tables)
      ⟨t, seq, some 0, choices⟩ := by
  refine Prog.Ensures.mono (createChat_ensures user.id.toUInt64 user.name friendId) fun ok c => ?_
  rintro (⟨rfl, ⟨hsame, -⟩, hno⟩ | ⟨rfl, hcalm, hlt, a, b, chat, row, ha, hb, hcan, hrow, hid,
    hchat, htables, -⟩)
  · refine ⟨⟨fun hok => (by cases hok), ?_⟩, fun hok => (by cases hok), fun _ => hsame⟩
    rintro ⟨⟨hcalm, hlt⟩, hpossible⟩
    exact absurd ⟨hcalm, hlt, (exists_canChat_iff huser).mpr hpossible⟩ hno
  · have hpossible := (exists_canChat_iff huser).mp ⟨a, b, ha, hb, hcan⟩
    refine ⟨⟨fun _ => ⟨⟨hcalm, hlt⟩, hpossible⟩, fun _ => rfl⟩,
      fun _ friend hfriend hfriendId => ?_, fun hok => (by cases hok)⟩
    obtain rfl : user.id = a := Option.some_inj.mp ((PgInt.ofUInt64?_toUInt64 _).symm.trans ha)
    -- the identifier of the friend is that of one row only
    have hb' : friend.id = b := by
      rw [← hfriendId, PgInt.ofUInt64?_toUInt64] at hb
      exact Option.some_inj.mp hb
    obtain rfl : row = friend :=
      List.inj_on_of_nodup_map h.clientKey hrow hfriend (hid.trans hb'.symm)
    refine ⟨chat, fun hmem => ?_, by rw [htables, hid]⟩
    exact Nat.lt_irrefl _ (hchat ▸ h.chatSerial chat hmem)

end AllOrNothing

/-- Two clients who have no chat. -/
def twoStrangers : Tables :=
  { (0 : Tables) with client := [⟨1, "Ada", "a", []⟩, ⟨2, "Bob", "b", []⟩] }

theorem twoStrangers_schema : twoStrangers.Schema { client := 3, chat := 1 } where
  emails := by decide
  contacts := .nil
  contactClients := fun _ h => by cases h
  members := fun _ h => by cases h
  messages := fun _ h => by cases h
  clientKey := by decide
  chatKey := .nil
  clientSerial := by decide
  chatSerial := fun _ h => by cases h

/-- The second client gets a chat with the first; the last statement before the commit fails when
the first asks for one with the second. -/
theorem allOrNothing_twoStrangers :
    AllOrNothing twoStrangers { client := 3, chat := 1 } ⟨2, "Bob", "b", []⟩ 1
      (fun _ => .proceed .stored) true
      (twoStrangers + chatRows 2 1 1 "Bob" "Ada") ∧
    AllOrNothing twoStrangers { client := 3, chat := 1 } ⟨1, "Ada", "a", []⟩ 2
      (fun n => if n = 7 then .fail else .proceed .stored) false twoStrangers :=
  ⟨createChat_allOrNothing twoStrangers_schema (List.mem_cons_of_mem _ (List.mem_cons_self ..)) 1 _,
    createChat_allOrNothing twoStrangers_schema (List.mem_cons_self ..) 2 _⟩

end Elegram
