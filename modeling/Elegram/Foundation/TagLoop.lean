import Mathlib.Tactic.Common

/-!
# Tag loops with shortcuts

A tag loop reads tagged items off a stream into an accumulator. It reads a tag, looks the tag up in
a table of entries, lets the entry read the item, and starts again; unknown items are skipped, and
the loop ends where no tag follows or at an end-group tag. This is `plain`.

Generated loops take shortcuts. After an item they ask the stream whether the tag of the next
entry of the table follows, and if so they jump to the label of that entry; after the last entry
they ask whether the stream is at its end. The stream may always answer no (its answers depend on
how the bytes are buffered), and only a yes means anything. This is `run`, with a program point
for each label. `run_eq_plain` says that no answers make a difference.

A tag is a number whose lower three bits are the wire type and whose other bits are the number of
the field; zero is no tag.
-/

namespace TagLoop

/-! ### Sources and hints -/

/-- A stream of tagged items. -/
structure Source (S : Type) where
  size : S → ℕ
  readTag : S → ℕ × S
  /-- The stream is at a place where a message may end. -/
  atEnd : S → Bool
  skip : ℕ → S → Option S
  readTag_atEnd : ∀ s, atEnd s = true → (readTag s).1 = 0
  size_readTag : ∀ s, (readTag s).1 ≠ 0 → size (readTag s).2 < size s
  size_skip : ∀ {t s s'}, skip t s = some s' → size s' ≤ size s

variable {S : Type}

/-- What a stream says about the tag that follows. It may always say no. -/
structure Hints (src : Source S) where
  /-- The tag that was read is known to be at most 127. -/
  belowCutoff : S → Bool
  /-- The given tag follows, and the stream has moved behind it. -/
  expectTag : ℕ → S → Option S
  expectAtEnd : S → Bool
  le_of_belowCutoff : ∀ s, belowCutoff s = true → (src.readTag s).1 ≤ 127
  lt_of_not_belowCutoff : ∀ s, belowCutoff s = false →
    127 < (src.readTag s).1 ∨ (src.readTag s).1 = 0
  readTag_of_expectTag : ∀ {t s s'}, expectTag t s = some s' → src.readTag s = (t, s')
  atEnd_of_expectAtEnd : ∀ {s}, expectAtEnd s = true → src.atEnd s = true

/-- A stream that never takes a shortcut. -/
def Hints.never (src : Source S) : Hints src where
  belowCutoff s := (src.readTag s).1 ≤ 127
  expectTag _ _ := none
  expectAtEnd _ := false
  le_of_belowCutoff _ h := of_decide_eq_true h
  lt_of_not_belowCutoff _ h := .inl (Nat.lt_of_not_le (of_decide_eq_false h))
  readTag_of_expectTag h := by cases h
  atEnd_of_expectAtEnd h := by cases h

variable {src : Source S} {M : Type}

/-- The tag belongs to the field number, takes one byte and does not end a group. -/
def ValidTag (number tag : ℕ) : Prop :=
  tag / 8 = number ∧ 0 < number ∧ tag ≤ 127 ∧ tag % 8 ≠ 4

instance (number tag : ℕ) : Decidable (ValidTag number tag) := inferInstanceAs (Decidable (_ ∧ _))

/-- One case of the switch: its field number, the tag it insists on, and how it reads the item. -/
structure Entry (src : Source S) (M : Type) where
  number : ℕ
  tag : ℕ
  /-- After an item the case asks for its own tag first. -/
  repeated : Bool
  read : M → S → Option (M × S)
  valid : ValidTag number tag
  size_read : ∀ {m s m' s'}, read m s = some (m', s') → src.size s' ≤ src.size s

theorem Entry.tag_ne_zero (e : Entry src M) : e.tag ≠ 0 := by
  obtain ⟨hnum, hpos, -⟩ := e.valid
  omega

/-- A table: one case for each field number. -/
structure Table (src : Source S) (M : Type) where
  entries : List (Entry src M)
  nodup : (entries.map Entry.number).Nodup

/-- No item follows: there is no tag, or the tag ends a group. -/
def Closes (t : ℕ) : Prop := t = 0 ∨ t % 8 = 4

instance (t : ℕ) : Decidable (Closes t) := inferInstanceAs (Decidable (_ ∨ _))

/-- The tag of a case never ends a group. -/
theorem Entry.not_closes (e : Entry src M) : ¬ Closes e.tag := by
  rintro (h | h)
  · exact e.tag_ne_zero h
  · exact e.valid.2.2.2 h

/-! ### The plain loop -/

/-- The plain loop. With the accumulator comes whether the loop stopped at a place where a message
may end. -/
def plain (table : Table src M) (m : M) (s : S) : Option (M × Bool) :=
  if _hclose : Closes (src.readTag s).1 then some (m, src.atEnd s)
  else
    match table.entries.find? fun e => e.tag = (src.readTag s).1 with
    | some e =>
        match _hread : e.read m (src.readTag s).2 with
        | some (m', s') => plain table m' s'
        | none => none
    | none =>
        match _hskip : src.skip (src.readTag s).1 (src.readTag s).2 with
        | some s' => plain table m s'
        | none => none
termination_by src.size s
decreasing_by
  · have htag := src.size_readTag s fun h => _hclose (.inl h)
    have hle := e.size_read _hread
    omega
  · have htag := src.size_readTag s fun h => _hclose (.inl h)
    have hle := src.size_skip _hskip
    omega

variable {table : Table src M} {m : M} {s : S}

/-- The loop stops in front of a tag that closes. -/
theorem plain_of_closes (h : Closes (src.readTag s).1) :
    plain table m s = some (m, src.atEnd s) := by
  rw [plain, dif_pos h]

/-- The loop stops at the end of the input. -/
theorem plain_of_atEnd (h : src.atEnd s = true) : plain table m s = some (m, true) := by
  rw [plain_of_closes (.inl (src.readTag_atEnd s h)), h]

/-- A tag has at most one case. -/
theorem Table.find?_eq {e : Entry src M} (he : e ∈ table.entries) :
    table.entries.find? (fun e' => e'.tag = e.tag) = some e := by
  have hnodup := table.nodup
  generalize table.entries = es at he hnodup
  induction es with
  | nil => cases he
  | cons e' es ih =>
    rw [List.map_cons, List.nodup_cons] at hnodup
    rcases List.mem_cons.mp he with rfl | he
    · simp
    · have hne : e'.tag ≠ e.tag := by
        intro h
        refine hnodup.1 (List.mem_map.mpr ⟨e, he, ?_⟩)
        rw [← e.valid.1, ← e'.valid.1, h]
      rw [List.find?_cons_of_neg (by simpa using hne)]
      exact ih he hnodup.2

/-- One round with a case of the switch. -/
theorem plain_of_tag {e : Entry src M} (he : e ∈ table.entries) {s' : S}
    (htag : src.readTag s = (e.tag, s')) :
    plain table m s = (e.read m s').bind fun p => plain table p.1 p.2 := by
  rw [plain]
  simp only [htag, dif_neg e.not_closes, Table.find?_eq he]
  split
  next h =>
    simp only [htag] at h
    rw [h, Option.bind_some]
  next h =>
    simp only [htag] at h
    rw [h, Option.bind_none]

/-- One round without. -/
theorem plain_of_unknown {t : ℕ} {s' : S} (htag : src.readTag s = (t, s')) (ht : ¬ Closes t)
    (hunknown : ∀ e ∈ table.entries, e.tag ≠ t) :
    plain table m s = (src.skip t s').bind (plain table m) := by
  have hfind : table.entries.find? (fun e => e.tag = t) = none := by
    simpa using hunknown
  rw [plain]
  simp only [htag, dif_neg ht, hfind]
  split
  next h =>
    simp only [htag] at h
    rw [h, Option.bind_some]
  next h =>
    simp only [htag] at h
    rw [h, Option.bind_none]

/-- **Invariants of a loop.** What reading an item and skipping an item keep holds where the loop
stops. -/
theorem plain_invariant {P : M → S → Prop}
    (hread : ∀ e ∈ table.entries, ∀ m s m' s', (src.readTag s).1 = e.tag →
      e.read m (src.readTag s).2 = some (m', s') → P m s → P m' s')
    (hskip : ∀ m s s', (src.readTag s).1 ≠ 0 →
      src.skip (src.readTag s).1 (src.readTag s).2 = some s' → P m s → P m s')
    {m' : M} {b : Bool} (h : plain table m s = some (m', b)) (hP : P m s) :
    ∃ s', P m' s' ∧ (b = true → src.atEnd s' = true) := by
  induction m, s using plain.induct table with
  | case1 m s hclose =>
    rw [plain_of_closes hclose] at h
    obtain ⟨rfl, rfl⟩ := Prod.ext_iff.mp (Option.some.inj h)
    exact ⟨s, hP, id⟩
  | case2 m s hclose e hfind m₁ s₁ hr ih =>
    have htag : e.tag = (src.readTag s).1 := by simpa using List.find?_some hfind
    have he := List.mem_of_find?_eq_some hfind
    rw [plain_of_tag he (Prod.ext htag.symm rfl), hr, Option.bind_some] at h
    exact ih h (hread e he m s m₁ s₁ htag.symm hr hP)
  | case3 m s hclose e hfind hr =>
    have htag : e.tag = (src.readTag s).1 := by simpa using List.find?_some hfind
    rw [plain_of_tag (List.mem_of_find?_eq_some hfind) (Prod.ext htag.symm rfl), hr] at h
    cases h
  | case4 m s hclose hfind s₁ hs ih =>
    have hunknown : ∀ e ∈ table.entries, e.tag ≠ (src.readTag s).1 := by simpa using hfind
    rw [plain_of_unknown rfl hclose hunknown, hs, Option.bind_some] at h
    exact ih h (hskip m s s₁ (fun h0 => hclose (.inl h0)) hs hP)
  | case5 m s hclose hfind hs =>
    have hunknown : ∀ e ∈ table.entries, e.tag ≠ (src.readTag s).1 := by simpa using hfind
    rw [plain_of_unknown rfl hclose hunknown, hs] at h
    cases h

/-! ### The loop with shortcuts -/

/-- A point of the generated code: the head of the loop, or the label of an entry, which is
followed by the entries after it. -/
inductive Point (src : Source S) (M : Type)
  | top
  | label (e : Entry src M) (es : List (Entry src M))

def Point.rank : Point src M → ℕ
  | .top => 0
  | .label _ _ => 1

/-- The switch on the field number, with the exact test of the tag: the label it leads to, if the
tag is not unusual. -/
def Hints.dispatch (hints : Hints src) (entries : List (Entry src M)) (s : S) :
    Option (Entry src M × List (Entry src M)) :=
  if hints.belowCutoff s then
    match entries.dropWhile fun e => e.number ≠ (src.readTag s).1 / 8 with
    | e :: es => if (src.readTag s).1 = e.tag then some (e, es) else none
    | [] => none
  else none

/-- The shortcut after an item of `e`: the label to jump to, with the stream behind its tag. -/
def Hints.jump (hints : Hints src) (e : Entry src M) (es : List (Entry src M)) (s : S) :
    Option (Entry src M × List (Entry src M) × S) :=
  (if e.repeated then (hints.expectTag e.tag s).map fun s' => (e, es, s') else none).or
    (match es with
    | [] => none
    | e' :: es' => (hints.expectTag e'.tag s).map fun s' => (e', es', s'))

theorem Hints.dispatch_eq_some {hints : Hints src} {entries : List (Entry src M)} {s : S}
    {e : Entry src M} {es : List (Entry src M)} (h : hints.dispatch entries s = some (e, es)) :
    (src.readTag s).1 = e.tag ∧ ∃ before, entries = before ++ e :: es := by
  rw [dispatch] at h
  split at h
  · split at h
    next e' es' hdrop =>
      split_ifs at h with htag
      obtain ⟨rfl, rfl⟩ := Prod.ext_iff.mp (Option.some.inj h)
      exact ⟨htag, _, ((List.takeWhile_append_dropWhile).symm.trans (by rw [hdrop]))⟩
    next => cases h
  · cases h

theorem Hints.jump_eq_some {hints : Hints src} {e e' : Entry src M} {es es' : List (Entry src M)}
    {s s' : S} (h : hints.jump e es s = some (e', es', s')) :
    src.readTag s = (e'.tag, s') ∧ (e' :: es' <:+ e :: es) := by
  rw [jump.eq_def, Option.or_eq_some_iff] at h
  rcases h with h | ⟨-, h⟩
  · split_ifs at h
    obtain ⟨s₁, hs, heq⟩ := Option.map_eq_some_iff.mp h
    cases heq
    exact ⟨hints.readTag_of_expectTag hs, List.suffix_refl _⟩
  · cases es with
    | nil => cases h
    | cons e₁ es₁ =>
      obtain ⟨s₁, hs, heq⟩ := Option.map_eq_some_iff.mp h
      cases heq
      exact ⟨hints.readTag_of_expectTag hs, List.suffix_cons _ _⟩

theorem Hints.size_jump {hints : Hints src} {e e' : Entry src M} {es es' : List (Entry src M)}
    {s s' : S} (h : hints.jump e es s = some (e', es', s')) : src.size s' < src.size s := by
  obtain ⟨htag, -⟩ := jump_eq_some h
  have hlt := src.size_readTag s (by rw [htag]; exact e'.tag_ne_zero)
  rwa [htag] at hlt

/-- The generated loop, from any of its points on. -/
def run (hints : Hints src) (entries : List (Entry src M)) :
    Point src M → M → S → Option (M × Bool)
  | .top, m, s =>
      match _hdisp : hints.dispatch entries s with
      | some (e, es) => run hints entries (.label e es) m (src.readTag s).2
      | none =>
          -- `handle_unusual`
          if _hclose : Closes (src.readTag s).1 then some (m, src.atEnd s)
          else
            match _hskip : src.skip (src.readTag s).1 (src.readTag s).2 with
            | some s' => run hints entries .top m s'
            | none => none
  | .label e es, m, s =>
      match _hread : e.read m s with
      | some (m', s') =>
          match _hjump : hints.jump e es s' with
          | some (e', es', s'') => run hints entries (.label e' es') m' s''
          | none =>
              if es.isEmpty ∧ hints.expectAtEnd s' then some (m', true)
              else run hints entries .top m' s'
      | none => none
termination_by p _ s => 2 * src.size s + p.rank
decreasing_by
  · have htag := src.size_readTag s ((Hints.dispatch_eq_some _hdisp).1 ▸ e.tag_ne_zero)
    simp only [Point.rank]
    omega
  · have htag := src.size_readTag s fun h => _hclose (.inl h)
    have hle := src.size_skip _hskip
    simp only [Point.rank]
    omega
  · have hle := e.size_read _hread
    have hlt := Hints.size_jump _hjump
    simp only [Point.rank]
    omega
  · have hle := e.size_read _hread
    simp only [Point.rank]
    omega

/-! ### The shortcuts make no difference -/

/-- The labels of a table. -/
def Point.In (table : Table src M) : Point src M → Prop
  | .top => True
  | .label e es => e :: es <:+ table.entries

/-- What the plain loop does from here. -/
def Point.plain (table : Table src M) : Point src M → M → S → Option (M × Bool)
  | .top, m, s => TagLoop.plain table m s
  | .label e _, m, s => (e.read m s).bind fun p => TagLoop.plain table p.1 p.2

theorem Hints.unknown_of_dispatch {hints : Hints src} {s : S}
    (h : hints.dispatch table.entries s = none) (hclose : ¬ Closes (src.readTag s).1) :
    ∀ e ∈ table.entries, e.tag ≠ (src.readTag s).1 := by
  intro e he htag
  have hbelow : hints.belowCutoff s = true := by
    by_contra hnot
    rcases hints.lt_of_not_belowCutoff s (by simpa using hnot) with hlt | h0
    · exact absurd e.valid.2.2.1 (by omega)
    · exact hclose (.inl h0)
  rw [dispatch, if_pos hbelow, ← htag, e.valid.1] at h
  obtain ⟨before, after, hsplit, hbefore⟩ : ∃ before after, table.entries = before ++ e :: after ∧
      ∀ e' ∈ before, e'.number ≠ e.number := by
    obtain ⟨before, after, hsplit⟩ := List.append_of_mem he
    refine ⟨before, after, hsplit, fun e' he' heq => ?_⟩
    have hnodup := table.nodup
    rw [hsplit, List.map_append, List.map_cons, List.nodup_append] at hnodup
    exact hnodup.2.2 e'.number (List.mem_map_of_mem he') e.number List.mem_cons_self heq
  rw [hsplit, List.dropWhile_append_of_pos (by simpa using hbefore),
    List.dropWhile_cons_of_neg (by simp)] at h
  simp at h

theorem run_top (hints : Hints src) (entries : List (Entry src M)) (m : M) (s : S) :
    run hints entries .top m s =
      match hints.dispatch entries s with
      | some (e, es) => run hints entries (.label e es) m (src.readTag s).2
      | none =>
          if Closes (src.readTag s).1 then some (m, src.atEnd s)
          else (src.skip (src.readTag s).1 (src.readTag s).2).bind (run hints entries .top m) := by
  rw [run]
  split
  next e es h => simp only [h]
  next h =>
    simp only [h]
    split_ifs with hclose
    · rfl
    · split
      next s' hskip => rw [hskip, Option.bind_some]
      next hskip => rw [hskip, Option.bind_none]

theorem run_label (hints : Hints src) (entries : List (Entry src M)) (e : Entry src M)
    (es : List (Entry src M)) (m : M) (s : S) :
    run hints entries (.label e es) m s =
      (e.read m s).bind fun p =>
        match hints.jump e es p.2 with
        | some (e', es', s') => run hints entries (.label e' es') p.1 s'
        | none =>
            if es.isEmpty ∧ hints.expectAtEnd p.2 then some (p.1, true)
            else run hints entries .top p.1 p.2 := by
  rw [run]
  split
  next m' s' hread =>
    rw [hread, Option.bind_some]
    split
    next e' es' s'' hjump => simp only [hjump]
    next hjump => simp only [hjump]
  next hread => rw [hread, Option.bind_none]

theorem run_eq (hints : Hints src) {p : Point src M} (hp : p.In table) (m : M) (s : S) :
    run hints table.entries p m s = p.plain table m s := by
  induction p, m, s using run.induct hints table.entries with
  | case1 m s e es hdisp ih =>
    obtain ⟨htag, before, hsplit⟩ := Hints.dispatch_eq_some hdisp
    have hin : (Point.label e es).In table := ⟨before, hsplit.symm⟩
    have he : e ∈ table.entries := hin.subset List.mem_cons_self
    rw [run_top, hdisp]
    dsimp only
    rw [ih hin, Point.plain, Point.plain, plain_of_tag he (Prod.ext htag rfl)]
  | case2 m s hdisp hclose =>
    rw [run_top, hdisp]
    dsimp only
    rw [if_pos hclose, Point.plain, plain_of_closes hclose]
  | case3 m s hdisp hclose s' hskip ih =>
    have hunknown := Hints.unknown_of_dispatch hdisp hclose
    rw [run_top, hdisp]
    dsimp only
    rw [if_neg hclose, hskip, Option.bind_some, ih trivial, Point.plain, Point.plain,
      plain_of_unknown rfl hclose hunknown, hskip, Option.bind_some]
  | case4 m s hdisp hclose hskip =>
    have hunknown := Hints.unknown_of_dispatch hdisp hclose
    rw [run_top, hdisp]
    dsimp only
    rw [if_neg hclose, hskip, Option.bind_none, Point.plain,
      plain_of_unknown rfl hclose hunknown, hskip, Option.bind_none]
  | case5 e es m s m' s' hread e' es' s'' hjump ih =>
    obtain ⟨htag, hsuffix⟩ := Hints.jump_eq_some hjump
    have hin : (Point.label e' es').In table := hsuffix.trans hp
    have he : e' ∈ table.entries := hin.subset List.mem_cons_self
    rw [run_label, hread, Option.bind_some, hjump]
    dsimp only
    rw [ih hin, Point.plain, Point.plain, hread, Option.bind_some, plain_of_tag he htag]
  | case6 e es m s m' s' hread hjump hend =>
    rw [run_label, hread, Option.bind_some, hjump]
    dsimp only
    rw [if_pos hend, Point.plain, hread, Option.bind_some,
      plain_of_atEnd (hints.atEnd_of_expectAtEnd hend.2)]
  | case7 e es m s m' s' hread hjump hend ih =>
    rw [run_label, hread, Option.bind_some, hjump]
    dsimp only
    rw [if_neg hend, ih trivial, Point.plain, Point.plain, hread, Option.bind_some]
  | case8 e es m s hread =>
    rw [run_label, hread, Option.bind_none, Point.plain, hread, Option.bind_none]

/-- A generated parser: its loop from the head. -/
def parse (hints : Hints src) (table : Table src M) (m : M) (s : S) : Option (M × Bool) :=
  run hints table.entries .top m s

/-- **The shortcuts make no difference.** -/
theorem parse_eq_plain (hints : Hints src) (table : Table src M) :
    parse hints table = plain table := by
  funext m s
  exact run_eq hints (p := .top) trivial m s

end TagLoop
