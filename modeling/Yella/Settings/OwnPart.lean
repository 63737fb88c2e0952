import Yella.Lib.Leaves
import Yella.Settings.ByteSize
import Yella.Settings.Described

/-!
# The part of a file that a section reads

Two documents that have the same values for a section, and what reading the section makes of them.
-/

namespace Yella

/-! ## Documents -/

/-- Nodes that are the same, where the nodes in them are related. -/
def YamlNode.Alike {n m : Nat} (R : Fin n → Fin m → Prop) : YamlNode n → YamlNode m → Prop
  | .scalar value, .scalar value' => value = value'
  | .sequence items, .sequence items' => List.Forall₂ R items items'
  | .mapping pairs, .mapping pairs' =>
    List.Forall₂ (fun pr pr' => R pr.1 pr'.1 ∧ R pr.2 pr'.2) pairs pairs'
  | _, _ => False

/-- The same value at two nodes, whatever aliases it is made of. -/
def SameValue (doc doc' : YamlDocument) (a : Fin doc.size) (b : Fin doc'.size) : Prop :=
  ∃ R, (∀ i j, R i j → (doc.node i).Alike R (doc'.node j)) ∧ R a b

/-- The pairs of a root that is a mapping, or a sequence of mappings. -/
def YamlDocument.topPairs (doc : YamlDocument) : Option (List (Fin doc.size × Fin doc.size)) :=
  doc.root.bind fun root =>
    match doc.node root with
    | .mapping pairs => some pairs
    | .sequence items =>
      (items.mapM fun item =>
        match doc.node item with
        | .mapping pairs => some pairs
        | _ => none).map List.flatten
    | .scalar _ => none

namespace YamlReader

variable (reader : YamlReader) (doc doc' : YamlDocument)

/-- The values that are given under the section's key. -/
def ownValues (pairs : List (Fin doc.size × Fin doc.size)) : List (Fin doc.size) :=
  (pairs.filter fun pr => reader.keyText doc pr.1 = some reader.sct).map Prod.snd

/-- Two documents with the same values for the section, in the same order. -/
def OwnPartsAgree : Prop :=
  ∃ pairs pairs', doc.topPairs = some pairs ∧ doc'.topPairs = some pairs' ∧
    List.Forall₂ (SameValue doc doc') (reader.ownValues doc pairs) (reader.ownValues doc' pairs')

/-- Both documents leave the section's settings the same, if they leave any, and neither changes
those of another section. -/
structure ReadsOwnPart (icu : ByteSizeIcu) : Prop where
  ends : ∀ st, reader.Starts icu st →
    ((∃ st', reader.Retrieves doc icu st st') ↔ ∃ st', reader.Retrieves doc' icu st st')
  same : ∀ st st₁ st₂, reader.Starts icu st → reader.Retrieves doc icu st st₁ →
    reader.Retrieves doc' icu st st₂ →
      ∀ key type, getValue st₁ reader.sct key type = getValue st₂ reader.sct key type
  others : ∀ st st', reader.Starts icu st →
    reader.Retrieves doc icu st st' ∨ reader.Retrieves doc' icu st st' →
      ∀ sct key type, sct ≠ reader.sct → getValue st' sct key type = getValue st sct key type

/-! ## The same value is read the same -/

section
variable {reader doc doc'} {R : Fin doc.size → Fin doc'.size → Prop} {a : Fin doc.size}
  {b : Fin doc'.size}

theorem pairCall_alike (alike : ∀ i j, R i j → (doc.node i).Alike R (doc'.node j))
    {pr : Fin doc.size × Fin doc.size} {pr' : Fin doc'.size × Fin doc'.size}
    (key : R pr.1 pr'.1) (value : R pr.2 pr'.2) :
    Option.Rel (fun c d => R c.1 d.1 ∧ c.2 = d.2) (reader.pairCall doc pr)
      (reader.pairCall doc' pr') := by
  have hkey := alike _ _ key
  have hvalue := alike _ _ value
  unfold pairCall
  cases nodeKey : doc.node pr.1 <;> cases nodeKey' : doc'.node pr'.1 <;>
    rw [nodeKey, nodeKey'] at hkey <;> cases hkey
  case scalar.scalar.refl text =>
    dsimp only
    split
    · exact .some ⟨value, rfl⟩
    · cases reader.descs.find? (·.key = reader.utf.fromUtf8 text) with
      | none => exact .none
      | some desc =>
        cases nodeVal : doc.node pr.2 <;> cases nodeVal' : doc'.node pr'.2 <;>
          rw [nodeVal, nodeVal'] at hvalue <;> first | exact hvalue.elim | skip
        · exact .some ⟨value, rfl⟩
        · exact .none
        · exact .none
  all_goals exact .none

theorem calls_alike (alike : ∀ i j, R i j → (doc.node i).Alike R (doc'.node j)) (h : R a b) :
    List.Forall₂ (fun c d => R c.1 d.1 ∧ c.2 = d.2) (reader.calls doc a) (reader.calls doc' b) := by
  have hnode := alike a b h
  unfold calls
  cases node : doc.node a <;> cases node' : doc'.node b <;> rw [node, node'] at hnode <;>
    first | exact hnode.elim | skip
  case scalar.scalar => exact .nil
  case sequence.sequence items items' =>
    rw [List.forall₂_map_left_iff, List.forall₂_map_right_iff]
    exact hnode.imp fun i j related => ⟨related, rfl⟩
  case mapping.mapping pairs pairs' =>
    exact List.rel_filterMap (fun pr pr' related => pairCall_alike alike related.1 related.2) hnode

theorem atScalar_alike {α : Type} (set : SettingDesc → List UInt8 → α)
    (alike : ∀ i j, R i j → (doc.node i).Alike R (doc'.node j)) (h : R a b)
    (keyDesc : Option SettingDesc) : atScalar doc set a keyDesc = atScalar doc' set b keyDesc := by
  have hnode := alike a b h
  unfold atScalar
  cases node : doc.node a <;> cases node' : doc'.node b <;> rw [node, node'] at hnode <;>
    first | exact hnode.elim | skip
  case scalar.scalar =>
    cases hnode
    rfl

/-- Nodes with the same value give the same calls. -/
theorem handleYamlNode_alike (alike : ∀ i j, R i j → (doc.node i).Alike R (doc'.node j))
    (h : R a b) (depth : Nat) (keyDesc : Option SettingDesc) :
    reader.handleYamlNode doc depth a keyDesc = reader.handleYamlNode doc' depth b keyDesc := by
  induction depth generalizing a b keyDesc with
  | zero => rfl
  | succ depth ih =>
    rw [handleYamlNode, handleYamlNode, walk_succ, walk_succ, atScalar_alike _ alike h]
    congr 1
    apply Fallible.mapM_forall₂ (calls_alike alike h)
    rintro ⟨i, desc⟩ ⟨j, _⟩ ⟨related, rfl⟩
    exact ih related desc

theorem handleYamlNode_sameValue (h : SameValue doc doc' a b) (depth : Nat) :
    reader.handleYamlNode doc depth a none = reader.handleYamlNode doc' depth b none := by
  obtain ⟨R, alike, related⟩ := h
  exact handleYamlNode_alike alike related depth none

end

/-! ## The top level -/

/-- The calls for pairs of the root. -/
def pairsCalls (depth : Nat) (pairs : List (Fin doc.size × Fin doc.size)) :
    Option (List SettingsCall) :=
  (pairs.mapM fun pr => (reader.pairCall doc pr).elim (some []) fun call =>
    reader.handleYamlNode doc depth call.1 call.2).map List.flatten

section
variable {reader doc doc'} {depth : Nat} {pairs : List (Fin doc.size × Fin doc.size)}
  {found : List SettingsCall}

theorem handleYamlNode_mapping {node : Fin doc.size} (h : doc.node node = .mapping pairs)
    (keyDesc : Option SettingDesc) : reader.handleYamlNode doc (depth + 1) node keyDesc =
      reader.pairsCalls doc depth pairs := by
  rw [handleYamlNode, walk, h]
  rfl

/-- The root is read as its pairs are. -/
theorem retrieve_top (top : doc.topPairs = some pairs) : ∃ open', ∀ depth,
    reader.retrieve doc (depth + open') = reader.pairsCalls doc depth pairs := by
  obtain ⟨root, hroot, top⟩ := Option.bind_eq_some_iff.mp top
  simp only [retrieve, hroot]
  cases node : doc.node root with
  | scalar value =>
    rw [node] at top
    cases top
  | mapping _ =>
    rw [node] at top
    cases top
    exact ⟨1, fun depth => handleYamlNode_mapping node none⟩
  | sequence items =>
    rw [node] at top
    obtain ⟨lists, hlists, rfl⟩ := Option.map_eq_some_iff.mp top
    refine ⟨2, ?_⟩
    intro depth
    rw [handleYamlNode, walk, node, pairsCalls, ← Fallible.mapM_flatten]
    dsimp only
    congr 1
    apply Fallible.mapM_of_mapM hlists
    intro item _ inner hinner
    cases node : doc.node item with
    | mapping _ =>
      rw [node] at hinner
      cases hinner
      exact handleYamlNode_mapping node none
    | scalar _ | sequence _ =>
      rw [node] at hinner
      cases hinner

theorem pairsCalls_of_retrieve (top : doc.topPairs = some pairs)
    (h : reader.retrieve doc depth = some found) :
    reader.pairsCalls doc depth pairs = some found := by
  obtain ⟨open', read⟩ := @retrieve_top reader doc pairs top
  rw [← read depth]
  exact retrieve_mono (Nat.le_add_right depth open') h

theorem retrieve_of_pairsCalls (top : doc.topPairs = some pairs)
    (h : reader.pairsCalls doc depth pairs = some found) :
    ∃ more, reader.retrieve doc more = some found := by
  obtain ⟨open', read⟩ := @retrieve_top reader doc pairs top
  exact ⟨depth + open', by rw [read, h]⟩

end

/-! ## Scalars of a key -/

section
variable (icu : ByteSizeIcu) (key : UStr)

/-- The value that a scalar gives a setting, unless it gives none. -/
def scalarValue (desc : SettingDesc) (value : List UInt8) : Option (UStr ⊕ UInt64) :=
  if (reader.setter desc value).stores icu then some ((reader.setter desc value).value icu)
  else none

/-- What a pair has for a key: the node that is given under the section's key, or the value of the
key's own scalar. -/
def pairPart (pr : Fin doc.size × Fin doc.size) : Option (Fin doc.size ⊕ (UStr ⊕ UInt64)) :=
  if reader.keyText doc pr.1 = some reader.sct then some (.inl pr.2)
  else if reader.keyText doc pr.1 = some key then
    match reader.descs.find? (·.key = key), doc.node pr.2 with
    | some desc, .scalar value => (reader.scalarValue icu desc value).map .inr
    | _, _ => none
  else none

/-- What a node has for a key, where the node is in the section. -/
def nodeParts (node : Fin doc.size) : List (Fin doc.size ⊕ (UStr ⊕ UInt64)) :=
  match doc.node node with
  | .scalar _ => []
  | .sequence items => items.map .inl
  | .mapping pairs => pairs.filterMap (reader.pairPart doc icu key)

/-- A scalar beside the section gives the key this value, and no scalar behind it gives one. -/
def BesideLast (value : UStr ⊕ UInt64) : Prop :=
  ∃ pairs, doc.topPairs = some pairs ∧
    Leaves.LastOf (reader.nodeParts doc icu key) (fun part leaf => part = .inr leaf)
      (pairs.filterMap (reader.pairPart doc icu key)) value

/-- The section's own values give the key this value last. -/
def OwnLast (value : UStr ⊕ UInt64) : Prop :=
  ∃ pairs, doc.topPairs = some pairs ∧
    Leaves.LastOf (reader.nodeParts doc icu key) (Leaves.Last (reader.nodeParts doc icu key))
      ((reader.ownValues doc pairs).map .inl) value

end

/-- What stands last beside the section in the one document stands there in the other too, or is
given last by the section itself where the other has none. -/
def Covers (icu : ByteSizeIcu) (reader : YamlReader) (doc doc' : YamlDocument) : Prop :=
  ∀ key value, reader.BesideLast doc icu key value →
    reader.BesideLast doc' icu key value ∨
      (∀ other, ¬ reader.BesideLast doc' icu key other) ∧ reader.OwnLast doc icu key value

/-- Reading ends for neither, or what stands beside the section makes no difference. -/
def GivesSame (icu : ByteSizeIcu) (reader : YamlReader) (doc doc' : YamlDocument) : Prop :=
  reader.Acyclic doc → Covers icu reader doc doc' ∧ Covers icu reader doc' doc

/-! ## What is left of two documents -/

section
variable {reader doc doc'} {depth : Nat} {icu : ByteSizeIcu} {place : UStr × UStr} {key : UStr}
  {st : Settings} {found found' : List SettingsCall}
  {pairs : List (Fin doc.size × Fin doc.size)} {pairs' : List (Fin doc'.size × Fin doc'.size)}

/-- What a pair is read for, and what it has for a key. -/
theorem pairPart_cases (icu : ByteSizeIcu) (reader : YamlReader) (doc : YamlDocument) (key : UStr)
    (pr : Fin doc.size × Fin doc.size) :
    (reader.pairCall doc pr = some (pr.2, none) ∧
        reader.pairPart doc icu key pr = some (.inl pr.2)) ∨
      (reader.pairCall doc pr = none ∧ reader.pairPart doc icu key pr = none) ∨
      ∃ desc value, reader.pairCall doc pr = some (pr.2, some desc) ∧
        doc.node pr.2 = .scalar value ∧ reader.pairPart doc icu key pr =
          if desc.key = key then (reader.scalarValue icu desc value).map .inr else none := by
  unfold pairCall pairPart keyText
  cases doc.node pr.1 with
  | scalar keyNode =>
    dsimp only
    simp only [Option.some_inj]
    by_cases own : reader.utf.fromUtf8 keyNode = reader.sct
    · rw [if_pos own, if_pos own]
      exact .inl ⟨rfl, rfl⟩
    · rw [if_neg own, if_neg own]
      cases first : reader.descs.find? (·.key = reader.utf.fromUtf8 keyNode) with
      | none =>
        refine .inr (.inl ⟨rfl, ?_⟩)
        split
        · next here => rw [← here, first]
        · rfl
      | some desc =>
        have described : desc.key = reader.utf.fromUtf8 keyNode := by
          simpa using List.find?_some first
        cases val : doc.node pr.2 with
        | scalar value =>
          refine .inr (.inr ⟨desc, value, rfl, rfl, ?_⟩)
          rw [described]
          by_cases here : reader.utf.fromUtf8 keyNode = key
          · rw [if_pos here, if_pos here, ← here, first]
          · rw [if_neg here, if_neg here]
        | mapping _ | sequence _ =>
          refine .inr (.inl ⟨rfl, ?_⟩)
          split
          · split
            · next scalar => cases scalar
            · rfl
          · rfl
  | mapping _ | sequence _ => exact .inr (.inl ⟨rfl, by simp⟩)

theorem storedValues_setter (desc : SettingDesc) (value : List UInt8) :
    storedValues icu (reader.sct, key) [reader.setter desc value] =
      if desc.key = key then (reader.scalarValue icu desc value).toList else [] := by
  have place : (reader.setter desc value).place = (reader.sct, desc.key) := scalarCall_place
  unfold storedValues scalarValue
  by_cases stores : (reader.setter desc value).stores icu <;> by_cases here : desc.key = key <;>
    simp [stores, place, here]

theorem storedValues_flatten (parts : List (List SettingsCall)) :
    storedValues icu place parts.flatten = (parts.map (storedValues icu place)).flatten := by
  induction parts with
  | nil => rfl
  | cons part parts ih => rw [List.flatten_cons, storedValues_append, ih]; rfl

/-- The calls for a pair store the leaves of what it has for the key. -/
theorem pair_leaves {pr : Fin doc.size × Fin doc.size}
    (below : ∀ node found, reader.handleYamlNode doc depth node none = some found →
      Leaves.leaves (reader.nodeParts doc icu key) depth (.inl node) =
        some (storedValues icu (reader.sct, key) found))
    (h : ((reader.pairCall doc pr).elim (some []) fun call =>
      reader.handleYamlNode doc depth call.1 call.2) = some found) :
    (reader.pairPart doc icu key pr).elim (some [])
      (Leaves.leaves (reader.nodeParts doc icu key) depth) =
        some (storedValues icu (reader.sct, key) found) := by
  obtain ⟨call, part⟩ | ⟨call, part⟩ | ⟨desc, value, call, scalar, part⟩ :=
    pairPart_cases icu reader doc key pr
  · rw [call, Option.elim_some] at h
    rw [part, Option.elim_some]
    exact below pr.2 found h
  · rw [call, Option.elim_none] at h
    cases h
    rw [part]
    rfl
  · rw [call, Option.elim_some] at h
    obtain ⟨depth, rfl⟩ : ∃ less, depth = less + 1 := by
      cases depth with
      | zero => cases h
      | succ depth => exact ⟨depth, rfl⟩
    rw [handleYamlNode, walk, scalar] at h
    cases h
    rw [part, storedValues_setter]
    by_cases here : desc.key = key
    · rw [if_pos here, if_pos here]
      cases reader.scalarValue icu desc value <;> simp [Leaves.leaves]
    · rw [if_neg here, if_neg here]
      rfl

variable (icu key) in
/-- The calls for pairs store the leaves of what they have for the key. -/
theorem pairs_leaves
    (below : ∀ node found, reader.handleYamlNode doc depth node none = some found →
      Leaves.leaves (reader.nodeParts doc icu key) depth (.inl node) =
        some (storedValues icu (reader.sct, key) found))
    (h : reader.pairsCalls doc depth pairs = some found) :
    ((pairs.filterMap (reader.pairPart doc icu key)).mapM
      (Leaves.leaves (reader.nodeParts doc icu key) depth)).map List.flatten =
        some (storedValues icu (reader.sct, key) found) := by
  obtain ⟨parts, read, rfl⟩ := Option.map_eq_some_iff.mp h
  rw [← Fallible.mapM_filterMap, Fallible.mapM_of_mapM read fun pr _ found => pair_leaves below,
    Fallible.mapM_eq_map fun _ _ => rfl, Option.map_some, storedValues_flatten]

/-- The calls for a node of the section store its leaves. -/
theorem node_leaves {node : Fin doc.size}
    (h : reader.handleYamlNode doc depth node none = some found) :
    Leaves.leaves (reader.nodeParts doc icu key) depth (.inl node) =
      some (storedValues icu (reader.sct, key) found) := by
  induction depth generalizing node found with
  | zero => cases h
  | succ depth ih =>
    rw [handleYamlNode, walk] at h
    rw [Leaves.leaves, nodeParts]
    cases hnode : doc.node node with
    | scalar value =>
      rw [hnode] at h
      cases h
      rfl
    | sequence items =>
      rw [hnode] at h
      obtain ⟨parts, read, rfl⟩ := Option.map_eq_some_iff.mp h
      have leaves : (items.map Sum.inl).mapM
          (Leaves.leaves (reader.nodeParts doc icu key) depth) =
            some (parts.map (storedValues icu (reader.sct, key))) := by
        rw [List.mapM_map]
        exact (Fallible.mapM_of_mapM read fun item _ found => ih).trans
          (Fallible.mapM_eq_map fun _ _ => rfl)
      rw [leaves, Option.map_some, storedValues_flatten]
    | mapping pairs =>
      rw [hnode] at h
      exact pairs_leaves icu key (fun node found => ih) h

/-- A value of the section is read with the same depth in both. -/
theorem pairsCalls_isSome (reader : YamlReader) (doc : YamlDocument) (depth : Nat)
    (pairs : List (Fin doc.size × Fin doc.size)) :
    (reader.pairsCalls doc (depth + 1) pairs).isSome ↔
      ∀ val ∈ reader.ownValues doc pairs,
        (reader.handleYamlNode doc (depth + 1) val none).isSome := by
  rw [pairsCalls, Option.isSome_map, Fallible.mapM_isSome]
  constructor
  · intro all val hval
    obtain ⟨pr, hpr, rfl⟩ := List.mem_map.mp hval
    obtain ⟨mem, own⟩ := List.mem_filter.mp hpr
    have ends := all pr mem
    obtain ⟨-, call⟩ | ⟨other, -⟩ := pairCall_cases reader doc pr
    · rw [call, Option.elim_some] at ends
      exact ends
    · exact absurd (of_decide_eq_true own) other
  · intro all pr hpr
    obtain ⟨own, call⟩ | ⟨-, call | ⟨desc, value, call, scalar, -⟩⟩ := pairCall_cases reader doc pr
    · rw [call, Option.elim_some]
      exact all pr.2 (List.mem_map.mpr ⟨pr, List.mem_filter.mpr ⟨hpr, decide_eq_true own⟩, rfl⟩)
    · rw [call]
      rfl
    · rw [call, Option.elim_some, handleYamlNode, walk, scalar]
      rfl

theorem values_isSome {vals : List (Fin doc.size)} {vals' : List (Fin doc'.size)}
    (values : List.Forall₂ (SameValue doc doc') vals vals')
    (h : ∀ val ∈ vals, (reader.handleYamlNode doc depth val none).isSome) :
    ∀ val ∈ vals', (reader.handleYamlNode doc' depth val none).isSome := by
  induction values with
  | nil =>
    intro val hval
    cases hval
  | cons same _ ih =>
    rw [List.forall_mem_cons] at h ⊢
    rw [← handleYamlNode_sameValue same]
    exact ⟨h.1, ih h.2⟩

/-- Reading one document ends where reading the other does. -/
theorem retrieve_ends_of_agree (agree : reader.OwnPartsAgree doc doc')
    (h : ∃ depth, (reader.retrieve doc depth).isSome) :
    ∃ depth, (reader.retrieve doc' depth).isSome := by
  obtain ⟨pairs, pairs', top, top', values⟩ := agree
  obtain ⟨depth, ends⟩ := h
  obtain ⟨found, hfound⟩ := Option.isSome_iff_exists.mp ends
  have calls := pairsCalls_of_retrieve top (retrieve_mono (Nat.le_succ depth) hfound)
  have all := (pairsCalls_isSome reader doc depth pairs).mp (by rw [calls]; rfl)
  have all' := values_isSome values all
  obtain ⟨found', calls'⟩ :=
    Option.isSome_iff_exists.mp ((pairsCalls_isSome reader doc' depth pairs').mpr all')
  obtain ⟨more, read⟩ := retrieve_of_pairsCalls top' calls'
  exact ⟨more, by rw [read]; rfl⟩

theorem SameValue.symm {a : Fin doc.size} {b : Fin doc'.size} (h : SameValue doc doc' a b) :
    SameValue doc' doc b a := by
  obtain ⟨R, alike, related⟩ := h
  refine ⟨fun j i => R i j, ?_, related⟩
  intro j i hij
  have hnode := alike i j hij
  cases node : doc.node i <;> cases node' : doc'.node j <;> rw [node, node'] at hnode <;>
    first | exact hnode.elim | skip
  case scalar.scalar => exact hnode.symm
  case sequence.sequence => exact hnode.flip
  case mapping.mapping => exact hnode.flip

theorem OwnPartsAgree.symm (agree : reader.OwnPartsAgree doc doc') :
    reader.OwnPartsAgree doc' doc := by
  obtain ⟨pairs, pairs', top, top', values⟩ := agree
  exact ⟨pairs', pairs, top', top, values.flip.imp fun _ _ => SameValue.symm⟩

/-- What two readings leave is the same if the last values are. -/
theorem same_of_last (last : ∀ key, (storedValues icu (reader.sct, key) found).getLast? =
      (storedValues icu (reader.sct, key) found').getLast?) {st₁ st₂ : Settings} {more : Nat}
    (starts : reader.Starts icu st) (read : reader.retrieve doc depth = some found)
    (read' : reader.retrieve doc' more = some found')
    (after : (settingsMachine icu).after st found = some st₁)
    (after' : (settingsMachine icu).after st found' = some st₂) (key : UStr)
    (type : SettingValueType) :
    getValue st₁ reader.sct key type = getValue st₂ reader.sct key type := by
  obtain ⟨st₁', reached, changed, kept⟩ := starts_retrieves starts read
  obtain ⟨st₂', reached', changed', kept'⟩ := starts_retrieves starts read'
  cases after.symm.trans reached
  cases after'.symm.trans reached'
  cases first : reader.descs.find? (·.key = key) with
  | some desc => rw [changed key desc first, changed' key desc first, last key]
  | none =>
    have none := place_of_not_described first (describes_of_retrieve read)
    have none' := place_of_not_described first (describes_of_retrieve read')
    rw [kept (reader.sct, key) none, kept' (reader.sct, key) none']

theorem last_of_same (read : reader.retrieve doc depth = some found) {more : Nat}
    (read' : reader.retrieve doc' more = some found')
    (same : ∀ st₁ st₂, (settingsMachine icu).after .initial found = some st₁ →
      (settingsMachine icu).after .initial found' = some st₂ →
        ∀ key type, getValue st₁ reader.sct key type = getValue st₂ reader.sct key type)
    (key : UStr) : (storedValues icu (reader.sct, key) found).getLast? =
      (storedValues icu (reader.sct, key) found').getLast? := by
  cases first : reader.descs.find? (·.key = key) with
  | some desc =>
    obtain ⟨st₁, after, value⟩ := getValue_initial icu read first
    obtain ⟨st₂, after', value'⟩ := getValue_initial icu read' first
    have equal := same st₁ st₂ after after' key desc.type
    rw [value, value'] at equal
    exact Option.some_inj.mp equal
  | none =>
    rw [storedValues_eq_nil (place_of_not_described first (describes_of_retrieve read)),
      storedValues_eq_nil (place_of_not_described first (describes_of_retrieve read'))]

/-! ## The last value of a key -/

theorem besideLast_iff (top : doc.topPairs = some pairs) {value : UStr ⊕ UInt64} :
    reader.BesideLast doc icu key value ↔ Leaves.LastOf (reader.nodeParts doc icu key)
      (fun part leaf => part = .inr leaf) (pairs.filterMap (reader.pairPart doc icu key))
        value := by
  simp [BesideLast, top]

theorem ownLast_iff (top : doc.topPairs = some pairs) {value : UStr ⊕ UInt64} :
    reader.OwnLast doc icu key value ↔ Leaves.LastOf (reader.nodeParts doc icu key)
      (Leaves.Last (reader.nodeParts doc icu key)) ((reader.ownValues doc pairs).map .inl)
        value := by
  simp [OwnLast, top]

/-- The nodes among what pairs have for a key are the section's values. -/
theorem filter_isLeft_pairPart (icu : ByteSizeIcu) (reader : YamlReader) (doc : YamlDocument)
    (key : UStr) (pairs : List (Fin doc.size × Fin doc.size)) :
    (pairs.filterMap (reader.pairPart doc icu key)).filter Sum.isLeft =
      (reader.ownValues doc pairs).map .inl := by
  induction pairs with
  | nil => rfl
  | cons pr pairs ih =>
    rw [ownValues] at ih ⊢
    by_cases own : reader.keyText doc pr.1 = some reader.sct
    · have part : reader.pairPart doc icu key pr = some (.inl pr.2) := if_pos own
      rw [List.filterMap_cons_some part, List.filter_cons, List.filter_cons,
        if_pos (decide_eq_true own), List.map_cons, List.map_cons, ← ih]
      rfl
    · rw [List.filter_cons, if_neg (by simpa using own), ← ih]
      cases part : reader.pairPart doc icu key pr with
      | none => rw [List.filterMap_cons_none part]
      | some part' =>
        rw [List.filterMap_cons_some part, List.filter_cons]
        cases part' with
        | inr leaf => rfl
        | inl node =>
          rw [pairPart, if_neg own] at part
          split at part
          · split at part
            · cases value : reader.scalarValue icu ‹_› ‹_› <;> rw [value] at part <;> cases part
            · cases part
          · cases part

/-- The last value that reading stores stands beside the section, or the section gives it. -/
theorem storedValues_last_iff (top : doc.topPairs = some pairs)
    (h : reader.pairsCalls doc depth pairs = some found) {value : UStr ⊕ UInt64} :
    (storedValues icu (reader.sct, key) found).getLast? = some value ↔
      reader.BesideLast doc icu key value ∨
        (∀ other, ¬ reader.BesideLast doc icu key other) ∧ reader.OwnLast doc icu key value := by
  obtain ⟨lists, read, flat⟩ :=
    Option.map_eq_some_iff.mp (pairs_leaves icu key (fun _ _ => node_leaves) h)
  simp only [besideLast_iff top, ownLast_iff top]
  rw [← flat, ← Leaves.lastOf_iff_getLast read, Leaves.lastOf_last_iff, filter_isLeft_pairPart]

/-- What the section itself gives last is what the calls for its values store last. -/
theorem ownLast_iff_getLast (top : doc.topPairs = some pairs) {lists : List (List SettingsCall)}
    (h : ((reader.ownValues doc pairs).mapM fun val =>
      reader.handleYamlNode doc depth val none) = some lists) {value : UStr ⊕ UInt64} :
    reader.OwnLast doc icu key value ↔
      (lists.map (storedValues icu (reader.sct, key))).flatten.getLast? = some value := by
  have leaves : ((reader.ownValues doc pairs).map Sum.inl).mapM
      (Leaves.leaves (reader.nodeParts doc icu key) depth) =
        some (lists.map (storedValues icu (reader.sct, key))) := by
    rw [List.mapM_map]
    exact (Fallible.mapM_of_mapM h fun val _ found => node_leaves).trans
      (Fallible.mapM_eq_map fun _ _ => rfl)
  rw [ownLast_iff top, Leaves.lastOf_iff_getLast leaves]

/-- Both documents' sections give the same last, and no two values. -/
theorem ownLast_of_agree (agree : reader.OwnPartsAgree doc doc')
    (ends : ∃ depth, (reader.retrieve doc depth).isSome) : ∃ last : Option (UStr ⊕ UInt64),
    ∀ value, (reader.OwnLast doc icu key value ↔ last = some value) ∧
      (reader.OwnLast doc' icu key value ↔ last = some value) := by
  obtain ⟨pairs, pairs', top, top', values⟩ := agree
  obtain ⟨depth, ends⟩ := ends
  obtain ⟨found, read⟩ := Option.isSome_iff_exists.mp ends
  have calls := pairsCalls_of_retrieve top (retrieve_mono (Nat.le_succ depth) read)
  have all := (pairsCalls_isSome reader doc depth pairs).mp (by rw [calls]; rfl)
  obtain ⟨lists, own⟩ := Option.isSome_iff_exists.mp (Fallible.mapM_isSome.mpr all)
  have own' := own
  rw [Fallible.mapM_forall₂ values fun a b h => handleYamlNode_sameValue h _] at own'
  exact ⟨_, fun value => ⟨ownLast_iff_getLast top own, ownLast_iff_getLast top' own'⟩⟩

/-- Where each document covers the other, both have the same last value. -/
theorem last_of_covers (agree : reader.OwnPartsAgree doc doc')
    (ends : ∃ depth, (reader.retrieve doc depth).isSome) (covers : Covers icu reader doc doc')
    (covers' : Covers icu reader doc' doc) {value : UStr ⊕ UInt64}
    (last : reader.BesideLast doc icu key value ∨
      (∀ other, ¬ reader.BesideLast doc icu key other) ∧ reader.OwnLast doc icu key value) :
    reader.BesideLast doc' icu key value ∨
      (∀ other, ¬ reader.BesideLast doc' icu key other) ∧ reader.OwnLast doc' icu key value := by
  obtain ⟨ownLast, same⟩ := @ownLast_of_agree reader doc doc' icu key agree ends
  rcases last with beside | ⟨none, own⟩
  · rcases covers key value beside with beside' | ⟨none', own⟩
    · exact .inl beside'
    · exact .inr ⟨none', (same value).2.mpr ((same value).1.mp own)⟩
  · have given := (same value).1.mp own
    by_cases beside' : ∃ other, reader.BesideLast doc' icu key other
    · obtain ⟨other, beside'⟩ := beside'
      rcases covers' key other beside' with beside | ⟨-, own'⟩
      · exact absurd beside (none other)
      · cases given.symm.trans ((same other).2.mp own')
        exact .inl beside'
    · push Not at beside'
      exact .inr ⟨beside', (same value).2.mpr given⟩

/-- Where both have the same last values, each document covers the other. -/
theorem covers_of_last (agree : reader.OwnPartsAgree doc doc')
    (ends : ∃ depth, (reader.retrieve doc depth).isSome) (top : doc.topPairs = some pairs)
    (top' : doc'.topPairs = some pairs') {more : Nat}
    (calls : reader.pairsCalls doc depth pairs = some found)
    (calls' : reader.pairsCalls doc' more pairs' = some found')
    (last : ∀ key, (storedValues icu (reader.sct, key) found).getLast? =
      (storedValues icu (reader.sct, key) found').getLast?) : Covers icu reader doc doc' := by
  intro key value beside
  obtain ⟨ownLast, given⟩ := @ownLast_of_agree reader doc doc' icu key agree ends
  have stored := (storedValues_last_iff top calls).mpr (.inl beside)
  rw [last key] at stored
  refine ((storedValues_last_iff top' calls').mp stored).imp_right ?_
  rintro ⟨none, own⟩
  exact ⟨none, (given value).1.mpr ((given value).2.mp own)⟩

/-- No described key stands beside the section with a scalar. -/
def Clean (reader : YamlReader) (doc : YamlDocument) : Prop :=
  ∀ pairs, doc.topPairs = some pairs → ∀ pr ∈ pairs, reader.keyText doc pr.1 ≠ some reader.sct →
    reader.pairCall doc pr = none

theorem covers_of_clean (clean : reader.Clean doc) : Covers icu reader doc doc' := by
  rintro key value ⟨pairs, top, before, part, after, split, rfl, -⟩
  have leaf : .inr value ∈ pairs.filterMap (reader.pairPart doc icu key) := by
    rw [split]
    simp
  obtain ⟨pr, mem, part⟩ := List.mem_filterMap.mp leaf
  obtain ⟨-, own⟩ | ⟨-, none⟩ | ⟨desc, text, call, -⟩ := pairPart_cases icu reader doc key pr
  · cases own.symm.trans part
  · cases none.symm.trans part
  · have beside : reader.keyText doc pr.1 ≠ some reader.sct := by
      intro own
      rw [pairPart, if_pos own] at part
      cases part
    cases (clean pairs top pr mem beside).symm.trans call

/-- A section reads only its own part exactly if what stands beside it makes no difference. -/
theorem readsOwnPart_iff (icu : ByteSizeIcu) (reader : YamlReader) (doc doc' : YamlDocument)
    (agree : reader.OwnPartsAgree doc doc') :
    reader.ReadsOwnPart doc doc' icu ↔ GivesSame icu reader doc doc' := by
  have agree_top := agree
  obtain ⟨pairs, pairs', top, top', -⟩ := agree_top
  constructor
  · intro h acyclic
    have ends := (retrieve_ends_iff reader doc).2.mpr acyclic
    obtain ⟨depth, found, read⟩ := ends.imp fun _ => Option.isSome_iff_exists.mp
    obtain ⟨more, found', read'⟩ :=
      (retrieve_ends_of_agree agree ends).imp fun _ => Option.isSome_iff_exists.mp
    have same : ∀ st₁ st₂, (settingsMachine icu).after .initial found = some st₁ →
        (settingsMachine icu).after .initial found' = some st₂ →
          ∀ key type, getValue st₁ reader.sct key type = getValue st₂ reader.sct key type := by
      intro st₁ st₂ after after'
      exact h.same .initial st₁ st₂ (starts_initial reader icu) ⟨depth, _, read, after⟩
        ⟨more, _, read', after'⟩
    have calls := pairsCalls_of_retrieve top read
    have calls' := pairsCalls_of_retrieve top' read'
    have last := last_of_same read read' same
    exact ⟨covers_of_last agree ends top top' calls calls' last,
      covers_of_last agree.symm (retrieve_ends_of_agree agree ends) top' top calls' calls
        fun key => (last key).symm⟩
  · intro gives
    constructor
    · intro st starts
      rw [retrieves_iff_ends starts, retrieves_iff_ends starts]
      exact ⟨retrieve_ends_of_agree agree, retrieve_ends_of_agree agree.symm⟩
    · rintro st st₁ st₂ starts ⟨depth, found, read, after⟩ ⟨more, found', read', after'⟩
      apply same_of_last _ starts read read' after after'
      intro key
      have ends : ∃ depth, (reader.retrieve doc depth).isSome := ⟨depth, by rw [read]; rfl⟩
      have ends' : ∃ depth, (reader.retrieve doc' depth).isSome := ⟨more, by rw [read']; rfl⟩
      obtain ⟨covers, covers'⟩ := gives ((retrieve_ends_iff reader doc).2.mp ends)
      have last {value : UStr ⊕ UInt64} :=
        @storedValues_last_iff reader doc depth icu key found pairs top
          (pairsCalls_of_retrieve top read) value
      have last' {value : UStr ⊕ UInt64} :=
        @storedValues_last_iff reader doc' more icu key found' pairs' top'
          (pairsCalls_of_retrieve top' read') value
      apply Option.ext
      intro value
      constructor
      · intro h
        exact last'.mpr (last_of_covers agree ends covers covers' (last.mp h))
      · intro h
        exact last.mpr (last_of_covers agree.symm ends' covers' covers (last'.mp h))
    · rintro st st' starts (h | h) sct key type other
      · exact retrieves_others starts h other key type
      · exact retrieves_others starts h other key type

end

/-! ## Two documents -/

/-- A section `a` with one number `k`. -/
def oneNumber : YamlReader := ⟨asciiUtf, Yella.strtoull, [97], [⟨[107], .uint⟩]⟩

/-- `a: {k: 1}` -/
def inside : YamlDocument := .oneValue [97] [107] [49]

/-- `a: {k: 1}`, and `b: 2` beside it. -/
def insideAndOther : YamlDocument where
  size := 7
  node i := [.mapping [(1, 2), (5, 6)], .scalar [97], .mapping [(3, 4)], .scalar [107],
    .scalar [49], .scalar [98], .scalar [50]].get i

theorem inside_agrees : oneNumber.OwnPartsAgree inside insideAndOther := by
  refine ⟨_, _, rfl, rfl, .cons ⟨fun i j => i.val = j.val ∧ i.val ≠ 0, ?_, by decide⟩ .nil⟩
  rintro ⟨i, hi⟩ ⟨j, hj⟩ ⟨same, pos⟩
  dsimp only at same pos
  subst same
  have cases : i = 1 ∨ i = 2 ∨ i = 3 ∨ i = 4 := by
    have : i < 5 := hi
    omega
  rcases cases with rfl | rfl | rfl | rfl
  · exact rfl
  · exact .cons (by decide) .nil
  · exact rfl
  · exact rfl

theorem readsOwnPart_inside : oneNumber.ReadsOwnPart inside insideAndOther IcuChars.ascii.icu := by
  apply (readsOwnPart_iff _ oneNumber inside insideAndOther inside_agrees).mpr
  intro _
  constructor
  · apply covers_of_clean
    intro pairs top
    cases (rfl : inside.topPairs = some _).symm.trans top
    exact List.forall_mem_singleton.mpr fun other => absurd rfl other
  · apply covers_of_clean
    intro pairs top
    cases (rfl : insideAndOther.topPairs = some _).symm.trans top
    exact List.forall_mem_cons.mpr
      ⟨fun other => absurd rfl other, List.forall_mem_singleton.mpr fun _ => rfl⟩

/-- A document with one pair, `k` with a digit, which is not in the section. -/
def beside (digit : UInt8) : YamlDocument where
  size := 3
  node i := [.mapping [(1, 2)], .scalar [107], .scalar [digit]].get i

/-- `k: 1` and `k: 2` have nothing in the section. -/
theorem not_readsOwnPart_beside : oneNumber.OwnPartsAgree (beside 49) (beside 50) ∧
    ¬ oneNumber.ReadsOwnPart (beside 49) (beside 50) IcuChars.ascii.icu := by
  constructor
  · exact ⟨_, _, rfl, rfl, .nil⟩
  · intro h
    have read (digit : UInt8) : oneNumber.retrieve (beside digit) 2 =
        some [.setUint [97] [107] (Yella.strtoull [digit])] := rfl
    have first : oneNumber.descs.find? (·.key = [107]) = some ⟨[107], .uint⟩ := rfl
    obtain ⟨st₁, after, value⟩ := getValue_initial IcuChars.ascii.icu (read 49) first
    obtain ⟨st₂, after', value'⟩ := getValue_initial IcuChars.ascii.icu (read 50) first
    have same := h.same .initial st₁ st₂ (starts_initial oneNumber _) ⟨2, _, read 49, after⟩
      ⟨2, _, read 50, after'⟩ [107] .uint
    rw [show oneNumber.sct = [97] from rfl] at value value' same
    have one : (storedValues IcuChars.ascii.icu ([97], [107])
        [.setUint [97] [107] (Yella.strtoull [49])]).getLast? = some (.inr 1) := by decide
    have two : (storedValues IcuChars.ascii.icu ([97], [107])
        [.setUint [97] [107] (Yella.strtoull [50])]).getLast? = some (.inr 2) := by decide
    rw [value, value', one, two] at same
    cases same

end YamlReader

end Yella
