import Mathlib.Combinatorics.SimpleGraph.Operations

/-!
# What a messenger is for

Users have accounts, which their emails tell apart. They add each other as contacts, which is
mutual, and two of them can open a room, in which both can write. This is independent of tables,
identifiers and the server: `User` and `Chat` are any types, and `Key` is that of the secrets which
users present when they log in.

A `Messenger` cannot be in an invalid state. Its four operations take the proofs that they need,
and they only add (`Messenger.le_register` and the like).
-/

namespace Elegram

/-- What a messenger knows of a user. -/
@[ext] structure Account (Key : Type*) where
  name : String
  email : String
  key : Key

/-- The conversation of two users. Each of them has a title for it. -/
structure Room (User : Type*) where
  members : Sym2 User
  two : ¬ members.IsDiag
  title : User → String
  /-- Senders and texts, oldest first. -/
  transcript : List (User × String)
  senders : ∀ m ∈ transcript, m.1 ∈ members

namespace Room

variable {User : Type*}

/-- A room in which nothing has been written. -/
def fresh [DecidableEq User] (u v : User) (h : u ≠ v) (titleU titleV : String) : Room User where
  members := s(u, v)
  two := h
  title := Function.update (fun _ => titleV) u titleU
  transcript := []
  senders := fun _ hm => (by cases hm)

/-- The other member has the other title. -/
theorem title_fresh_right [DecidableEq User] {u v : User} (h : u ≠ v) (titleU titleV : String) :
    (fresh u v h titleU titleV).title v = titleV := by
  simp [fresh, h.symm]

/-- A member writes. -/
def write (r : Room User) (u : User) (text : String) (h : u ∈ r.members) : Room User where
  members := r.members
  two := r.two
  title := r.title
  transcript := r.transcript ++ [(u, text)]
  senders := by
    intro m hm
    rcases List.mem_append.mp hm with hm | hm
    · exact r.senders m hm
    · rw [List.mem_singleton.mp hm]
      exact h

/-- The room has remained the same but for what was written. -/
structure Le (r s : Room User) : Prop where
  members : r.members = s.members
  title : r.title = s.title
  transcript : r.transcript <+: s.transcript

instance : Preorder (Room User) where
  le := Le
  le_refl _ := ⟨rfl, rfl, List.prefix_rfl⟩
  le_trans _ _ _ h h' :=
    ⟨h.members.trans h'.members, h.title.trans h'.title, h.transcript.trans h'.transcript⟩

/-- Writing continues the transcript. -/
theorem le_write (r : Room User) {u : User} {text : String} (h : u ∈ r.members) :
    r ≤ r.write u text h := ⟨rfl, rfl, List.prefix_append _ _⟩

end Room

/-- The users, who knows whom, and the rooms. -/
structure Messenger (User Chat Key : Type*) where
  account : User → Option (Account Key)
  contacts : SimpleGraph User
  room : Chat → Option (Room User)
  email_inj : ∀ u v a b, account u = some a → account v = some b → a.email = b.email → u = v
  account_of_adj : ∀ u v, contacts.Adj u v → (account u).isSome
  account_of_member : ∀ c r u, room c = some r → u ∈ r.members → (account u).isSome
  room_inj : ∀ c d r s, room c = some r → room d = some s → r.members = s.members → c = d

namespace Messenger

variable {User Chat Key : Type*}

/-- Nobody is there. -/
def empty : Messenger User Chat Key where
  account _ := none
  contacts := ⊥
  room _ := none
  email_inj := fun _ _ _ _ h => (by cases h)
  account_of_adj := fun _ _ h => h.elim
  account_of_member := fun _ _ _ h => (by cases h)
  room_inj := fun _ _ _ _ h => (by cases h)

variable (M : Messenger User Chat Key)

/-- What has been written in a room. -/
def transcript (c : Chat) : List (User × String) := ((M.room c).map Room.transcript).getD []

/-! ### Operations -/

variable [DecidableEq User] in
/-- Somebody who is not there gets an account, with an email that nobody has. -/
def register (u : User) (a : Account Key) (_hu : M.account u = none)
    (hemail : ∀ v b, M.account v = some b → b.email ≠ a.email) : Messenger User Chat Key where
  account := Function.update M.account u (some a)
  contacts := M.contacts
  room := M.room
  email_inj := by
    intro v w b b' hv hw heq
    rw [Function.update_apply] at hv hw
    split_ifs at hv hw with hvu hwu hwu
    · rw [hvu, hwu]
    · cases hv
      exact absurd heq.symm (hemail w b' hw)
    · cases hw
      exact absurd heq (hemail v b hv)
    · exact M.email_inj v w b b' hv hw heq
  account_of_adj := by
    intro v w h
    rw [Function.update_apply]
    split_ifs
    · rfl
    · exact M.account_of_adj v w h
  account_of_member := by
    intro c r v hr hv
    rw [Function.update_apply]
    split_ifs
    · rfl
    · exact M.account_of_member c r v hr hv
  room_inj := M.room_inj

/-- Two users add each other. Nothing comes of it when they are the same. -/
def befriend (u v : User) (hu : (M.account u).isSome) (hv : (M.account v).isSome) :
    Messenger User Chat Key where
  account := M.account
  contacts := M.contacts ⊔ SimpleGraph.edge u v
  room := M.room
  email_inj := M.email_inj
  account_of_adj := by
    intro w x h
    rw [SimpleGraph.sup_adj, SimpleGraph.edge_adj] at h
    rcases h with h | ⟨⟨rfl, -⟩ | ⟨rfl, -⟩, -⟩
    · exact M.account_of_adj w x h
    · exact hu
    · exact hv
  account_of_member := M.account_of_member
  room_inj := M.room_inj

variable [DecidableEq User] [DecidableEq Chat] in
/-- A room for two users who have none. -/
def openRoom (c : Chat) (u v : User) (huv : u ≠ v) (hu : (M.account u).isSome)
    (hv : (M.account v).isSome) (_hc : M.room c = none)
    (hnone : ∀ d r, M.room d = some r → r.members ≠ s(u, v)) (titleU titleV : String) :
    Messenger User Chat Key where
  account := M.account
  contacts := M.contacts
  room := Function.update M.room c (some (.fresh u v huv titleU titleV))
  email_inj := M.email_inj
  account_of_adj := M.account_of_adj
  account_of_member := by
    intro d r w hr hw
    rw [Function.update_apply] at hr
    split_ifs at hr
    · cases hr
      rcases Sym2.mem_iff.mp hw with rfl | rfl
      · exact hu
      · exact hv
    · exact M.account_of_member d r w hr hw
  room_inj := by
    intro d e r s hr hs heq
    rw [Function.update_apply] at hr hs
    split_ifs at hr hs with hd he he
    · rw [hd, he]
    · cases hr
      exact absurd heq.symm (hnone e s hs)
    · cases hs
      exact absurd heq (hnone d r hr)
    · exact M.room_inj d e r s hr hs heq

variable [DecidableEq Chat] in
/-- A member writes in a room. -/
def post (c : Chat) (r : Room User) (u : User) (text : String) (hr : M.room c = some r)
    (hu : u ∈ r.members) : Messenger User Chat Key where
  account := M.account
  contacts := M.contacts
  room := Function.update M.room c (some (r.write u text hu))
  email_inj := M.email_inj
  account_of_adj := M.account_of_adj
  account_of_member := by
    intro d s w hs hw
    rw [Function.update_apply] at hs
    split_ifs at hs
    · cases hs
      exact M.account_of_member c r w hr hw
    · exact M.account_of_member d s w hs hw
  room_inj := by
    intro d e s s' hs hs' heq
    rw [Function.update_apply] at hs hs'
    split_ifs at hs hs' with hd he he
    · rw [hd, he]
    · cases hs
      exact hd.trans (M.room_inj c e r s' hr hs' heq)
    · cases hs'
      exact (M.room_inj d c s r hs hr heq).trans he.symm
    · exact M.room_inj d e s s' hs hs' heq

/-! What they change. -/

section Changes

variable {M} {u v : User} {c d : Chat} {a : Account Key} {r : Room User} {text : String}

section Register

variable [DecidableEq User] {hu : M.account u = none}
  {hemail : ∀ v b, M.account v = some b → b.email ≠ a.email}

/-- A registration adds one account. -/
theorem account_register :
    (M.register u a hu hemail).account v = if v = u then some a else M.account v :=
  Function.update_apply ..

@[simp] theorem contacts_register : (M.register u a hu hemail).contacts = M.contacts := rfl

@[simp] theorem room_register : (M.register u a hu hemail).room = M.room := rfl

end Register

section Befriend

variable {hu : (M.account u).isSome} {hv : (M.account v).isSome}

@[simp] theorem account_befriend : (M.befriend u v hu hv).account = M.account := rfl

/-- Contacts are mutual, and nobody is their own. -/
theorem adj_befriend {w x : User} : (M.befriend u v hu hv).contacts.Adj w x ↔
    M.contacts.Adj w x ∨ (w = u ∧ x = v ∨ w = v ∧ x = u) ∧ w ≠ x := by
  rw [befriend, SimpleGraph.sup_adj, SimpleGraph.edge_adj]

@[simp] theorem room_befriend : (M.befriend u v hu hv).room = M.room := rfl

end Befriend

section OpenRoom

variable [DecidableEq User] [DecidableEq Chat] {huv : u ≠ v} {hu : (M.account u).isSome}
  {hv : (M.account v).isSome} {hc : M.room c = none}
  {hnone : ∀ d r, M.room d = some r → r.members ≠ s(u, v)} {titleU titleV : String}

@[simp] theorem account_openRoom :
    (M.openRoom c u v huv hu hv hc hnone titleU titleV).account = M.account := rfl

@[simp] theorem contacts_openRoom :
    (M.openRoom c u v huv hu hv hc hnone titleU titleV).contacts = M.contacts := rfl

/-- One room is added. -/
theorem room_openRoom : (M.openRoom c u v huv hu hv hc hnone titleU titleV).room d =
    if d = c then some (.fresh u v huv titleU titleV) else M.room d :=
  Function.update_apply ..

/-- Nothing has been written in a new room. -/
theorem transcript_openRoom :
    (M.openRoom c u v huv hu hv hc hnone titleU titleV).transcript d = M.transcript d := by
  rw [transcript, transcript, room_openRoom]
  split_ifs with hd
  · rw [hd, hc]
    rfl
  · rfl

end OpenRoom

section Post

variable [DecidableEq Chat] {hr : M.room c = some r} {hu : u ∈ r.members}

@[simp] theorem account_post : (M.post c r u text hr hu).account = M.account := rfl

@[simp] theorem contacts_post : (M.post c r u text hr hu).contacts = M.contacts := rfl

/-- Only the one room changes. -/
theorem room_post :
    (M.post c r u text hr hu).room d = if d = c then some (r.write u text hu) else M.room d :=
  Function.update_apply ..

/-- One line is added to its transcript. -/
theorem transcript_post : (M.post c r u text hr hu).transcript d =
    M.transcript d ++ if d = c then [(u, text)] else [] := by
  rw [transcript, transcript, room_post]
  split_ifs with hd
  · rw [hd, hr]
    rfl
  · rw [List.append_nil]

end Post

end Changes

/-! ### What is added remains -/

/-- Nothing of the first is missing in the second. -/
structure Le (M M' : Messenger User Chat Key) : Prop where
  account : ∀ u a, M.account u = some a → M'.account u = some a
  contacts : M.contacts ≤ M'.contacts
  room : ∀ c r, M.room c = some r → ∃ s, M'.room c = some s ∧ r ≤ s

instance : Preorder (Messenger User Chat Key) where
  le := Le
  le_refl _ := ⟨fun _ _ h => h, le_rfl, fun _ r h => ⟨r, h, le_rfl⟩⟩
  le_trans M M' M'' h h' := by
    refine ⟨fun u a hu => h'.account u a (h.account u a hu), h.contacts.trans h'.contacts, ?_⟩
    intro c r hr
    obtain ⟨s, hs, hrs⟩ := h.room c r hr
    obtain ⟨s', hs', hss'⟩ := h'.room c s hs
    exact ⟨s', hs', hrs.trans hss'⟩

variable {M} {M' : Messenger User Chat Key}

/-- Transcripts are only continued. -/
theorem Le.transcript (h : M ≤ M') (c : Chat) : M.transcript c <+: M'.transcript c := by
  rw [Messenger.transcript]
  cases hr : M.room c with
  | none => exact List.nil_prefix
  | some r =>
    obtain ⟨s, hs, hrs⟩ := h.room c r hr
    rw [Messenger.transcript, hs]
    exact hrs.transcript

/-- The account is of somebody who had none. -/
theorem le_register [DecidableEq User] {u : User} {a : Account Key} (hu : M.account u = none)
    (hemail : ∀ v b, M.account v = some b → b.email ≠ a.email) :
    M ≤ M.register u a hu hemail := by
  refine ⟨fun v b hv => ?_, le_rfl, fun _ r h => ⟨r, h, le_rfl⟩⟩
  have hne : v ≠ u := fun heq => by
    rw [heq, hu] at hv
    cases hv
  exact (Function.update_of_ne hne _ _).trans hv

/-- Edges are added to the contacts. -/
theorem le_befriend {u v : User} (hu : (M.account u).isSome) (hv : (M.account v).isSome) :
    M ≤ M.befriend u v hu hv :=
  ⟨fun _ _ h => h, le_sup_left, fun _ r h => ⟨r, h, le_rfl⟩⟩

/-- The room takes the place of no other. -/
theorem le_openRoom [DecidableEq User] [DecidableEq Chat] {c : Chat} {u v : User} (huv : u ≠ v)
    (hu : (M.account u).isSome) (hv : (M.account v).isSome) (hc : M.room c = none)
    (hnone : ∀ d r, M.room d = some r → r.members ≠ s(u, v)) (titleU titleV : String) :
    M ≤ M.openRoom c u v huv hu hv hc hnone titleU titleV := by
  refine ⟨fun _ _ h => h, le_rfl, fun d r hr => ⟨r, ?_, le_rfl⟩⟩
  have hne : d ≠ c := fun heq => by
    rw [heq, hc] at hr
    cases hr
  exact (Function.update_of_ne hne _ _).trans hr

/-- The transcript of the one room is continued. -/
theorem le_post [DecidableEq Chat] {c : Chat} {r : Room User} {u : User} {text : String}
    (hr : M.room c = some r) (hu : u ∈ r.members) : M ≤ M.post c r u text hr hu := by
  refine ⟨fun _ _ h => h, le_rfl, fun d s hs => ?_⟩
  by_cases hd : d = c
  · subst hd
    cases hr.symm.trans hs
    exact ⟨_, Function.update_self _ _ _, r.le_write hu⟩
  · exact ⟨s, (Function.update_of_ne hd _ _).trans hs, le_rfl⟩

end Messenger

end Elegram
