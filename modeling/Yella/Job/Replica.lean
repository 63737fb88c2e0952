import Yella.Element.Equal
import Yella.Job.Collected
import Yella.Job.Rescan

/-!
# What can be known from the messages

The messages of one config carry all attributes of a new file and, of a changed one, those that
differ. Put together they show what has been observed last.
-/

namespace Yella

/-- The attributes of the files, as far as they are known. -/
abbrev Replica := UStr → Option (List Attribute)

/-- What is reported takes the place of what was known of the same types. -/
def mergeAttributes (known reported : List Attribute) : List Attribute :=
  reported ++ known.filter fun a => a.type ∉ reported.map Attribute.type

def Replica.apply (r : Replica) (m : Message) : Replica := fun n =>
  if n = m.name then
    match m.cond with
    | .added => m.attrs
    | .changed => (r n).map fun known => mergeAttributes known (m.attrs.getD [])
    | .removed => none
  else r n

/-- What the messages tell, one after the other. -/
def replicaOf (ms : List Message) : Replica := ms.foldl Replica.apply fun _ => none

/-- The same types, and of each type values that compare equal. -/
structure ShowsAttributes (known attrs : List Attribute) : Prop where
  types : ∀ t, (∃ a ∈ known, a.type = t) ↔ ∃ b ∈ attrs, b.type = t
  equal : ∀ a ∈ known, ∀ b ∈ attrs, a.type = b.type → compareAttributes a b = some 0

/-- What holds of the element of a call: it was collected from the files as they were then, it
reads back unchanged, and its names are C strings. -/
structure Observation.Proper (utf : Utf) (o : Observation) : Prop where
  stores : o.Stores utf
  terminated : ∀ e ∈ o.elem, ∀ a ∈ e.attrs, a.Terminated
  collected : ∃ fs ts, ∀ e ∈ o.elem, collectAttributes fs o.name ts = some e

structure Element.Proper (e : Element) : Prop where
  uniform : e.Uniform
  attrs : ∀ a ∈ e.attrs, a.Proper

theorem Observation.Proper.elem {utf : Utf} {o : Observation} (h : o.Proper utf) {e : Element}
    (he : o.elem = some e) : e.Proper where
  uniform := by
    obtain ⟨fs, ts, collected⟩ := h.collected
    exact collectAttributes_uniform (collected e he)
  attrs a ha := by
    obtain ⟨storable, fits⟩ := h.stores.comparable he a ha
    exact ⟨storable, fits, h.terminated e he a ha⟩

/-! ## Attributes -/

section
variable {known attrs2 as kept : List Attribute} {s e : Element}

theorem showsAttributes_self (proper : e.Proper) : ShowsAttributes e.attrs e.attrs where
  types _ := Iff.rfl
  equal a ha b hb same := by
    obtain rfl := proper.uniform a ha b hb same
    exact compareAttributes_self (proper.attrs a ha).storable

theorem mem_diffKept (h : diffKept attrs2 as = some kept) (a : Attribute) :
    a ∈ kept ↔ a ∈ as ∧
      ∀ found ∈ SortedList.find attrKey (attrKey a) attrs2, compareAttributes a found ≠ some 0 := by
  induction as generalizing kept with
  | nil =>
    cases h
    simp
  | cons b as ih =>
    simp only [diffKept, Option.bind_eq_bind, Option.bind_eq_some_iff] at h
    obtain ⟨rest, later, h⟩ := h
    have ih := ih later
    cases found : SortedList.find attrKey (attrKey b) attrs2 with
    | none =>
      simp only [found, Option.some_inj] at h
      subst h
      rw [List.mem_cons, List.mem_cons, ih]
      constructor
      · rintro (rfl | ⟨there, differs⟩)
        · exact ⟨.inl rfl, by simp [found]⟩
        · exact ⟨.inr there, differs⟩
      · rintro ⟨rfl | there, differs⟩
        · exact .inl rfl
        · exact .inr ⟨there, differs⟩
    | some c =>
      simp only [found, Option.bind_eq_some_iff, Option.some_inj] at h
      obtain ⟨rc, compared, eq⟩ := h
      by_cases zero : rc = 0
      · rw [if_pos zero] at eq
        subst eq zero
        rw [List.mem_cons, ih]
        constructor
        · exact fun both => ⟨.inr both.1, both.2⟩
        · rintro ⟨rfl | there, differs⟩
          · exact absurd compared (differs c found)
          · exact ⟨there, differs⟩
      · rw [if_neg zero] at eq
        subst eq
        rw [List.mem_cons, List.mem_cons, ih]
        constructor
        · rintro (rfl | ⟨there, differs⟩)
          · refine ⟨.inl rfl, fun d hd => ?_⟩
            cases found.symm.trans hd
            rw [compared]
            exact fun eq => zero (Option.some_inj.mp eq)
          · exact ⟨.inr there, differs⟩
        · rintro ⟨rfl | there, differs⟩
          · exact .inl rfl
          · exact .inr ⟨there, differs⟩

theorem mem_mergeAttributes {reported : List Attribute} {a : Attribute} :
    a ∈ mergeAttributes known reported ↔
      a ∈ reported ∨ a ∈ known ∧ ∀ b ∈ reported, b.type ≠ a.type := by
  simp [mergeAttributes]

/-- An attribute that is not reported is as it was. -/
theorem unreported (diff : diffKept s.attrs e.attrs = some kept) {b : Attribute}
    (hb : b ∈ e.attrs) (out : b ∉ kept) :
    ∃ found ∈ s.attrs, found.type = b.type ∧ compareAttributes b found = some 0 := by
  rw [mem_diffKept diff] at out
  obtain ⟨found, there, zero⟩ : ∃ found ∈ SortedList.find attrKey (attrKey b) s.attrs,
      compareAttributes b found = some 0 := by
    by_contra none'
    exact out ⟨hb, fun found there zero => none' ⟨found, there, zero⟩⟩
  obtain ⟨mem, key⟩ := SortedList.find_some attrKey there
  exact ⟨found, mem, AttributeType.toNat_inj.mp key, zero⟩

/-- **A difference is enough.** What shows the stored element shows the new one, once the
difference is put into it. -/
theorem ShowsAttributes.merge (h : ShowsAttributes known s.attrs)
    (proper : ∀ a ∈ known, a.Proper) (stored : s.Proper) (new : e.Proper)
    (diff : diffKept s.attrs e.attrs = some kept) (taken : diffTaken e.attrs s.attrs = []) :
    ShowsAttributes (mergeAttributes known kept) e.attrs where
  types t := by
    constructor
    · rintro ⟨a, ha, rfl⟩
      rcases mem_mergeAttributes.mp ha with reported | ⟨mem, -⟩
      · exact ⟨a, ((mem_diffKept diff a).mp reported).1, rfl⟩
      · obtain ⟨c, hc, same⟩ := (h.types a.type).mp ⟨a, mem, rfl⟩
        obtain ⟨b, hb, type⟩ := (diffTaken_eq_nil e.sorted).mp taken c hc
        exact ⟨b, hb, type.trans same⟩
    · rintro ⟨b, hb, rfl⟩
      by_cases reported : ∃ c ∈ kept, c.type = b.type
      · obtain ⟨c, hc, same⟩ := reported
        exact ⟨c, mem_mergeAttributes.mpr (.inl hc), same⟩
      · have out : b ∉ kept := fun hk => reported ⟨b, hk, rfl⟩
        obtain ⟨found, there, type, -⟩ := unreported diff hb out
        obtain ⟨a, ha, same⟩ := (h.types found.type).mpr ⟨found, there, rfl⟩
        refine ⟨a, mem_mergeAttributes.mpr (.inr ⟨ha, fun c hc other => ?_⟩), same.trans type⟩
        exact reported ⟨c, hc, (other.trans same).trans type⟩
  equal a ha b hb same := by
    rcases mem_mergeAttributes.mp ha with reported | ⟨mem, others⟩
    · have there := ((mem_diffKept diff a).mp reported).1
      obtain rfl := new.uniform a there b hb same
      exact compareAttributes_self (new.attrs a there).storable
    · have out : b ∉ kept := fun hk => others b hk same.symm
      obtain ⟨found, there, type, zero⟩ := unreported diff hb out
      have before := h.equal a mem found there (same.trans type.symm)
      exact compareAttributes_euclid (proper a mem) (stored.attrs found there) (new.attrs b hb)
        before zero

/-- Each attribute has one that it compares equal to. -/
theorem compareAttributeLists_partner {l r : List Attribute} (len : l.length = r.length)
    (h : compareAttributeLists l r = some 0) :
    ∀ a ∈ l, ∃ b ∈ r, compareAttributes a b = some 0 := by
  induction l generalizing r with
  | nil => exact fun a ha => absurd ha List.not_mem_nil
  | cons x l ih =>
    cases r with
    | nil => simp at len
    | cons y r =>
      rw [compareAttributeLists] at h
      split at h
      · rename_i zero
        refine List.forall_mem_cons.mpr ⟨⟨y, List.mem_cons_self, zero⟩, fun a ha => ?_⟩
        obtain ⟨b, hb, zero'⟩ := ih (by simpa using len) h a ha
        exact ⟨b, List.mem_cons_of_mem _ hb, zero'⟩
      · rename_i differs
        exact absurd h differs

/-- What shows the stored element shows one that compares equal to it. -/
theorem ShowsAttributes.of_equal (h : ShowsAttributes known s.attrs)
    (proper : ∀ a ∈ known, a.Proper) (stored : s.Proper) (seen : e.Proper)
    (equal : compareElementAttributes e s = some 0) : ShowsAttributes known e.attrs where
  types t := by
    have types := compareElementAttributes_types equal
    have mem : (∃ b ∈ e.attrs, b.type = t) ↔ ∃ b ∈ s.attrs, b.type = t := by
      rw [← List.mem_map, types, List.mem_map]
    rw [h.types, mem]
  equal a ha b hb same := by
    unfold compareElementAttributes at equal
    split at equal
    · rename_i len
      obtain ⟨c, hc, zero⟩ := compareAttributeLists_partner len equal b hb
      have before := h.equal a ha c hc (same.trans (compareAttributes_type zero))
      exact compareAttributes_euclid (proper a ha) (stored.attrs c hc) (seen.attrs b hb) before zero
    · rename_i differs
      exact absurd (Option.some_inj.mp equal) (by omega)

end

/-! ## One call -/

/-- What `process_element` does. -/
inductive ElementStep (utf : Utf) (j : Job) (name : UStr) (db : StateDb) :
    Option Element → StateDb → Option Message → Prop
  | absent (get : getElementFromStateDb utf db name = some none) :
      ElementStep utf j name db none db none
  | added {e : Element} {db' : StateDb} (get : getElementFromStateDb utf db name = some none)
      (insert : insertIntoStateDb utf db e = some db') :
      ElementStep utf j name db (some e) db' (some (message j name (some e.attrs) .added))
  | removed {s : Element} (get : getElementFromStateDb utf db name = some (some s)) :
      ElementStep utf j name db none (deleteFromStateDb db name)
        (some (message j name none .removed))
  | same {s e : Element} (get : getElementFromStateDb utf db name = some (some s))
      (equal : compareElementAttributes e s = some 0) : ElementStep utf j name db (some e) db none
  | changed {s e : Element} {db' : StateDb} {kept : List Attribute}
      (get : getElementFromStateDb utf db name = some (some s))
      (update : updateIntoStateDb utf db e = some db')
      (diff : diffKept s.attrs e.attrs = some kept) (taken : diffTaken e.attrs s.attrs = []) :
      ElementStep utf j name db (some e) db' (some (message j name (some kept) .changed))

section
variable {utf : Utf} {j : Job} {name : UStr} {elem : Option Element} {db db' : StateDb}
  {m : Option Message} {r : Replica} {o : Observation} {obs : List Observation} {ms : List Message}

theorem processElement_step (run : processElement utf j name elem db = some (db', m)) :
    ElementStep utf j name db elem db' m := by
  simp only [processElement, Option.bind_eq_bind, Option.bind_eq_some_iff] at run
  obtain ⟨before, get, run⟩ := run
  split at run
  · cases run
    exact .absent get
  · obtain ⟨_, insert, eq⟩ := Option.bind_eq_some_iff.mp run
    cases eq
    exact .added get insert
  · cases run
    exact .removed get
  · obtain ⟨cmp, compared, run⟩ := Option.bind_eq_some_iff.mp run
    split at run
    · obtain ⟨_, update, run⟩ := Option.bind_eq_some_iff.mp run
      split at run
      · cases run
      · obtain ⟨kept, diff, run⟩ := Option.bind_eq_some_iff.mp run
        split at run
        · cases run
        · rename_i taken
          cases run
          exact .changed get update diff (not_not.mp taken)
    · rename_i zero
      cases run
      exact .same get (not_not.mp zero ▸ compared)

/-- What is known of a name shows the entry of the database. -/
structure ShowsEntry (utf : Utf) (n : UStr) (known : List Attribute)
    (packed : Option FbAttrArray) : Prop where
  proper : ∀ a ∈ known, a.Proper
  entry : ∃ s, createElementWithAttrs utf n packed = some s ∧ s.Proper ∧
    ShowsAttributes known s.attrs

/-- What the messages tell of a name is what the database holds. -/
def Replica.FollowsAt (utf : Utf) (r : Replica) (db : StateDb) (n : UStr) : Prop :=
  Option.Rel (ShowsEntry utf n) (r n) (db.rows n)

def Replica.Follows (utf : Utf) (r : Replica) (db : StateDb) : Prop :=
  ∀ n, r.FollowsAt utf db n

theorem Replica.apply_of_ne {m : Message} {n : UStr} (other : n ≠ m.name) : r.apply m n = r n :=
  if_neg other

/-- Only the name of the message matters. -/
theorem Replica.FollowsAt.next {m : Message} {n : UStr}
    (before : n ≠ m.name → r.FollowsAt utf db n) (others : n ≠ m.name → db'.rows n = db.rows n)
    (here : n = m.name → Option.Rel (ShowsEntry utf n) (r.apply m n) (db'.rows n)) :
    (r.apply m).FollowsAt utf db' n := by
  by_cases own : n = m.name
  · exact here own
  · rw [Replica.FollowsAt, Replica.apply_of_ne own, others own]
    exact before own

theorem Replica.FollowsAt.known {s : Element} (h : r.FollowsAt utf db name)
    (get : getElementFromStateDb utf db name = some (some s)) :
    ∃ packed known, db.rows name = some packed ∧ r name = some known ∧ (∀ a ∈ known, a.Proper) ∧
      s.Proper ∧ ShowsAttributes known s.attrs := by
  unfold Replica.FollowsAt at h
  unfold getElementFromStateDb at get
  cases row : db.rows name with
  | none =>
    rw [row] at get
    cases get
  | some packed =>
    rw [row] at get h
    obtain ⟨s', read, eq⟩ := Option.map_eq_some_iff.mp get
    cases eq
    cases found : r name with
    | none =>
      rw [found] at h
      cases h
    | some known =>
      rw [found] at h
      obtain ⟨proper, s', read', stored, shows'⟩ := Option.rel_some_some.mp h
      cases read.symm.trans read'
      exact ⟨packed, known, rfl, rfl, proper, stored, shows'⟩

/-- What is written for an element shows in an entry that is read back. -/
theorem showsEntry_of_written {e : Element} {known : List Attribute} {packed : Option FbAttrArray}
    (stores : storeAndRead utf e.name e = some e)
    (written : packElementAttributes utf e = some packed) (proper : ∀ a ∈ known, a.Proper)
    (new : e.Proper) (shows' : ShowsAttributes known e.attrs) :
    ShowsEntry utf e.name known packed where
  proper := proper
  entry := by
    obtain ⟨packed', written', read⟩ := packed_of_readsBack stores
    cases written.symm.trans written'
    exact ⟨e, read, new, shows'⟩

/-- A message that does not build on what is known of its name -/
def Message.TellsAll (m : Message) : Prop := m.cond ≠ .changed

instance (m : Message) : Decidable m.TellsAll := by unfold Message.TellsAll; infer_instance

theorem before_of_ne {P : Prop} {msg : Message} {n : UStr}
    (h : P ∨ ∃ told ∈ some msg, told.name = n ∧ told.TellsAll) (other : n ≠ msg.name) : P := by
  rcases h with before | ⟨told, mem, named, -⟩
  · exact before
  · cases mem
    exact absurd named.symm other

/-- The message of a call, if there is one, tells what the call does to the database. What was known
of a name before matters only where the message does not tell all of it. -/
theorem Replica.FollowsAt.call {n : UStr}
    (h : r.FollowsAt utf db n ∨ ∃ msg ∈ m, msg.name = n ∧ msg.TellsAll) (proper : o.Proper utf)
    (run : processElement utf j o.name o.elem db = some (db', m)) :
    (m.toList.foldl Replica.apply r).FollowsAt utf db' n := by
  have stores (e : Element) (he : o.elem = some e) := proper.stores.readsBack e he
  have new (e : Element) (he : o.elem = some e) := proper.elem he
  have named := o.named
  have step := processElement_step run
  generalize o.elem = elem at step stores new named
  cases step with
  | absent | same => exact h.resolve_right (by simp)
  | @added e _ get insert =>
    obtain ⟨packed, written, eq⟩ := Option.bind_eq_some_iff.mp insert
    cases eq
    have name := named e rfl
    apply Replica.FollowsAt.next
    · exact fun other => before_of_ne h other
    · exact fun other => if_neg (name ▸ other)
    · rintro rfl
      have attrs := (new e rfl).attrs
      have shows' := showsEntry_of_written (stores e rfl) written attrs (new e rfl)
        (showsAttributes_self (new e rfl))
      simp only [Replica.apply, message, name, if_true]
      exact .some (name ▸ shows')
  | removed get =>
    apply Replica.FollowsAt.next
    · exact fun other => before_of_ne h other
    · exact fun other => if_neg other
    · rintro rfl
      simp only [Replica.apply, message, deleteFromStateDb, if_true]
      exact .none
  | @changed s e _ kept get update diff taken =>
    obtain ⟨packed, written, eq⟩ := Option.bind_eq_some_iff.mp update
    cases eq
    have name := named e rfl
    have before := h.resolve_right (by simp [message, Message.TellsAll])
    apply Replica.FollowsAt.next
    · exact fun _ => before
    · exact fun other => if_neg (name ▸ other)
    · rintro rfl
      obtain ⟨old, known, row, found, proper', stored, shows'⟩ := before.known get
      have merged := shows'.merge proper' stored (new e rfl) diff taken
      have all : ∀ a ∈ mergeAttributes known kept, a.Proper := by
        intro a ha
        rcases mem_mergeAttributes.mp ha with reported | ⟨mem, -⟩
        · exact (new e rfl).attrs a ((mem_diffKept diff a).mp reported).1
        · exact proper' a mem
      have entry := showsEntry_of_written (stores e rfl) written all (new e rfl) merged
      simp only [Replica.apply, message, name, if_true] at found row ⊢
      simp only [found, row, Option.map_some, Option.getD_some]
      exact .some (name ▸ entry)

/-! ## Many calls -/

theorem Replica.Follows.calls (h : r.Follows utf db) (proper : ∀ o ∈ obs, o.Proper utf)
    (run : processAll utf j db obs = some (db', ms)) :
    (ms.foldl Replica.apply r).Follows utf db' := by
  induction obs generalizing r db ms with
  | nil =>
    cases run
    exact h
  | cons o obs ih =>
    obtain ⟨first, others⟩ := List.forall_mem_cons.mp proper
    simp only [processAll, Option.bind_eq_bind, Option.bind_eq_some_iff] at run
    obtain ⟨⟨db₁, m⟩, call, ⟨db₂, ms₂⟩, rest, eq⟩ := run
    cases eq
    rw [List.foldl_append]
    exact ih (fun n => Replica.FollowsAt.call (.inl (h n)) first call) others rest

/-- Some of the messages, from the first one on, are all messages of some of the calls. -/
theorem processAll_prefix {sent : List Message} (part : sent <+: ms)
    (run : processAll utf j db obs = some (db', ms)) :
    ∃ seen later db₁, obs = seen ++ later ∧ processAll utf j db seen = some (db₁, sent) := by
  induction obs generalizing db ms sent with
  | nil =>
    cases run
    obtain rfl := List.prefix_nil.mp part
    exact ⟨[], [], _, rfl, rfl⟩
  | cons o obs ih =>
    simp only [processAll, Option.bind_eq_bind, Option.bind_eq_some_iff] at run
    obtain ⟨⟨db₁, m⟩, call, ⟨db₂, ms₂⟩, rest, eq⟩ := run
    cases eq
    cases sent with
    | nil => exact ⟨[], o :: obs, db, rfl, rfl⟩
    | cons x sent =>
      -- The call of the first message is the first one that has a message.
      obtain ⟨behind, part', eq⟩ : ∃ behind, behind <+: ms₂ ∧ x :: sent = m.toList ++ behind := by
        cases m with
        | none => exact ⟨x :: sent, part, rfl⟩
        | some y =>
          obtain ⟨rfl, part'⟩ := List.cons_prefix_cons.mp part
          exact ⟨sent, part', rfl⟩
      obtain ⟨seen, later, db₃, split, before⟩ := ih part' rest
      refine ⟨o :: seen, later, db₃, by rw [split, List.cons_append], ?_⟩
      simp only [processAll, call, before, Option.bind_eq_bind, Option.bind_some, eq]

/-- The file is in the copy if it was there when it was observed last, as it was then. -/
def Replica.ShowsLastAt (r : Replica) (obs : List Observation) (n : UStr) : Prop :=
  Option.Rel (fun known e => ShowsAttributes known e.attrs) (r n) (lastSeen obs n)

def Replica.ShowsLast (r : Replica) (obs : List Observation) : Prop := ∀ n, r.ShowsLastAt obs n

theorem lastSeen_proper (proper : ∀ o ∈ obs, o.Proper utf) {n : UStr} {e : Element}
    (last : lastSeen obs n = some e) : e.Proper := by
  induction obs using List.reverseRecOn with
  | nil => cases last
  | append_singleton obs o ih =>
    rw [lastSeen_snoc] at last
    split at last
    · exact (proper o (by simp)).elem last
    · exact ih (fun p hp => proper p (List.mem_append_left _ hp)) last

/-- What follows the database shows what was observed last. -/
theorem Replica.FollowsAt.showsLast {n : UStr} (h : r.FollowsAt utf db n)
    (logged : Logged utf obs db ms) (proper : ∀ o ∈ obs, o.Proper utf) : r.ShowsLastAt obs n := by
  unfold Replica.FollowsAt at h
  unfold Replica.ShowsLastAt
  generalize r n = known at h ⊢
  cases last : lastSeen obs n with
  | none =>
    rw [(logged.absent n last).1] at h
    cases h
    exact .none
  | some p =>
    obtain ⟨-, s, ⟨packed, row, read⟩, -, -, equal⟩ := logged.present n p last
    rw [row] at h
    cases h with
    | some entry =>
      obtain ⟨known, s', read', stored, shows'⟩ := entry
      cases read.symm.trans read'
      exact .some (shows'.of_equal known stored (lastSeen_proper proper last) equal)

/-- Who has got all messages knows all files. -/
theorem replicaOf_showsLast (proper : ∀ o ∈ obs, o.Proper utf)
    (run : processAll utf j .empty obs = some (db, ms)) : (replicaOf ms).ShowsLast obs := by
  have logged := logged_of_returns (fun o ho => (proper o ho).stores) run
  have start : Replica.Follows utf (fun _ => none) .empty := fun _ => .none
  exact fun n => (start.calls proper run n).showsLast logged proper

end

end Yella
