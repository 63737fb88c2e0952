import Yella.Lib.Depth
import Yella.Lib.Fallible
import Yella.Settings.Model

/-!
# Settings in a file

`handle_yaml_node` and `yella_retrieve_settings` on a document that libyaml has loaded.
-/

namespace Yella

/-- A node of a document of `n` nodes. Of a scalar it is the bytes before the first NUL. -/
inductive YamlNode (n : Nat) where
  | scalar (value : List UInt8)
  | sequence (items : List (Fin n))
  | mapping (pairs : List (Fin n × Fin n))
  deriving DecidableEq, Repr

/-- An alias is the index of its node, and so a node may be inside itself. -/
structure YamlDocument where
  size : Nat
  node : Fin size → YamlNode size

/-- `yaml_document_get_root_node`: the first node. -/
def YamlDocument.root (doc : YamlDocument) : Option (Fin doc.size) :=
  if h : 0 < doc.size then some ⟨0, h⟩ else none

/-- `sct: {key: value}` -/
def YamlDocument.oneValue (sct key value : List UInt8) : YamlDocument where
  size := 5
  node i := [.mapping [(1, 2)], .scalar sct, .mapping [(3, 4)], .scalar key, .scalar value].get i

/-- What `handle_yaml_node` is called with for a section, and how it reads scalars. -/
structure YamlReader where
  utf : Utf
  strtoull : List UInt8 → UInt64
  sct : UStr
  descs : List SettingDesc

namespace YamlReader

variable (reader : YamlReader) (doc : YamlDocument)

/-- The recursive call for a pair of a mapping: the node, and the description of the key. -/
def pairCall (pr : Fin doc.size × Fin doc.size) : Option (Fin doc.size × Option SettingDesc) :=
  match doc.node pr.1 with
  | .scalar keyNode =>
    let key := reader.utf.fromUtf8 keyNode
    if key = reader.sct then some (pr.2, none)
    else
      match reader.descs.find? (·.key = key) with
      | some desc =>
        match doc.node pr.2 with
        | .scalar _ => some (pr.2, some desc)
        | _ => none
      | none => none
  | _ => none

/-- The call of a setter for a scalar of a described key. -/
def setter (desc : SettingDesc) (value : List UInt8) : SettingsCall :=
  scalarCall reader.utf reader.strtoull reader.sct desc value

/-- The recursion, with what is done at each described scalar, in their order; `none` where it is
deeper than `depth`. -/
def walk {α : Type} (set : SettingDesc → List UInt8 → α) :
    Nat → Fin doc.size → Option SettingDesc → Option (List α)
  | 0, _, _ => none
  | depth + 1, node, keyDesc =>
    match doc.node node with
    | .scalar value =>
      match keyDesc with
      | some desc => some [set desc value]
      | none => some []
    | .mapping pairs =>
      (pairs.mapM fun pr =>
        -- a pair is passed over where its key is not of interest
        (pairCall reader doc pr).elim (some []) fun call =>
          walk set depth call.1 call.2).map List.flatten
    | .sequence items =>
      (items.mapM fun item => walk set depth item none).map List.flatten

/-- The calls of setters. -/
def handleYamlNode (depth : Nat) (node : Fin doc.size) (keyDesc : Option SettingDesc) :
    Option (List SettingsCall) :=
  reader.walk doc reader.setter depth node keyDesc

/-- The recursive calls that a node makes. -/
def calls (node : Fin doc.size) : List (Fin doc.size × Option SettingDesc) :=
  match doc.node node with
  | .scalar _ => []
  | .mapping pairs => pairs.filterMap (reader.pairCall doc)
  | .sequence items => items.map (·, none)

/-- A call for one node makes a call for another. -/
def Enters (a b : Fin doc.size) : Prop := ∃ desc, (b, desc) ∈ reader.calls doc a

/-- The calls of setters for the whole document. -/
def retrieve (depth : Nat) : Option (List SettingsCall) :=
  match doc.root with
  | some root => reader.handleYamlNode doc depth root none
  | none => some []

variable {reader doc} {node : Fin doc.size} {keyDesc : Option SettingDesc} {depth : Nat}

/-- What is done at a node itself. -/
def atScalar {α : Type} (doc : YamlDocument) (set : SettingDesc → List UInt8 → α)
    (node : Fin doc.size) (keyDesc : Option SettingDesc) : List α :=
  match doc.node node with
  | .scalar value => keyDesc.toList.map fun desc => set desc value
  | _ => []

section
variable {α β : Type} {set : SettingDesc → List UInt8 → α}

theorem walk_succ (reader : YamlReader) (doc : YamlDocument) (set : SettingDesc → List UInt8 → α)
    (node : Fin doc.size) (keyDesc : Option SettingDesc) (depth : Nat) :
    reader.walk doc set (depth + 1) node keyDesc =
      ((reader.calls doc node).mapM fun call => reader.walk doc set depth call.1 call.2).map
        fun parts => atScalar doc set node keyDesc ++ parts.flatten := by
  rw [walk, calls, atScalar]
  cases doc.node node with
  | scalar value => cases keyDesc <;> rfl
  | mapping pairs => exact Fallible.mapM_filterMap ..
  | sequence items => rw [List.mapM_map]; rfl

theorem walk_isSome : (reader.walk doc set depth node keyDesc).isSome ↔
    Depth.Within (reader.Enters doc) depth node := by
  induction depth generalizing node keyDesc with
  | zero => exact iff_of_false Bool.false_ne_true id
  | succ depth ih =>
    rw [walk_succ, Option.isSome_map, Fallible.mapM_isSome]
    constructor
    · rintro all next ⟨desc, call⟩
      exact ih.mp (all _ call)
    · intro all call hcall
      exact ih.mpr (all call.1 ⟨call.2, hcall⟩)

/-- What is done at the scalars does not matter to the recursion. -/
theorem walk_map (g : α → β) : reader.walk doc (fun desc value => g (set desc value)) depth node
    keyDesc = (reader.walk doc set depth node keyDesc).map (List.map g) := by
  induction depth generalizing node keyDesc with
  | zero => rfl
  | succ depth ih =>
    have here : atScalar doc (fun desc value => g (set desc value)) node keyDesc =
        (atScalar doc set node keyDesc).map g := by
      unfold atScalar
      cases doc.node node with
      | scalar value => cases keyDesc <;> rfl
      | mapping _ | sequence _ => rfl
    rw [walk_succ, walk_succ, here]
    simp only [ih]
    rw [← Fallible.map_mapM, Option.map_map, Option.map_map]
    congr 1
    funext parts
    simp only [Function.comp_apply, List.map_append, List.map_flatten]

/-- More depth changes nothing where there was enough. -/
theorem walk_mono {more : Nat} {found : List α} (le : depth ≤ more)
    (h : reader.walk doc set depth node keyDesc = some found) :
    reader.walk doc set more node keyDesc = some found := by
  induction depth generalizing node keyDesc more found with
  | zero => cases h
  | succ depth ih =>
    obtain ⟨more, rfl⟩ : ∃ k, more = k + 1 := ⟨more - 1, by omega⟩
    rw [walk_succ] at h ⊢
    obtain ⟨parts, hparts, rfl⟩ := Option.map_eq_some_iff.mp h
    rw [Fallible.mapM_mono _ hparts, Option.map_some]
    intro call _ found
    exact ih (by omega)

end

/-! ## Termination -/

open Relation

/-- Following sequence items and values of the section's key from the root, no node is met inside
itself. -/
def Acyclic (reader : YamlReader) (doc : YamlDocument) : Prop :=
  ∀ root, doc.root = some root → ∀ node, ReflTransGen (reader.Enters doc) root node →
    ¬ TransGen (reader.Enters doc) node node

theorem retrieve_isSome : (reader.retrieve doc depth).isSome ↔
    ∀ root, doc.root = some root → Depth.Within (reader.Enters doc) depth root := by
  rw [retrieve]
  cases doc.root with
  | none => simp
  | some root => simp [handleYamlNode, walk_isSome]

theorem retrieve_size_isSome_iff :
    (reader.retrieve doc doc.size).isSome ↔ reader.Acyclic doc := by
  rw [retrieve_isSome]
  apply forall₂_congr
  intro root _
  rw [← Depth.within_card_iff, Fintype.card_fin]

/-- Reading ends exactly if no cycle is followed, and then no more calls are open at a time than
there are nodes. -/
theorem retrieve_ends_iff (reader : YamlReader) (doc : YamlDocument) :
    ((reader.retrieve doc doc.size).isSome ↔ reader.Acyclic doc) ∧
      ((∃ depth, (reader.retrieve doc depth).isSome) ↔ reader.Acyclic doc) := by
  refine ⟨retrieve_size_isSome_iff, ?_, ?_⟩
  · rintro ⟨depth, ends⟩ root hroot node reached cycle
    have within := retrieve_isSome.mp ends root hroot
    rcases reflTransGen_iff_eq_or_transGen.mp reached with rfl | reached
    · exact within.no_cycle cycle
    · obtain ⟨less, -, within⟩ := within.of_transGen reached
      exact within.no_cycle cycle
  · intro acyclic
    exact ⟨doc.size, retrieve_size_isSome_iff.mpr acyclic⟩

/-- `&a [*a]` -/
def insideItself : YamlDocument where
  size := 1
  node _ := .sequence [0]

theorem insideItself_never_ends :
    ¬ ∃ depth, (retrieve ⟨asciiUtf, fun _ => 0, [97], []⟩ insideItself depth).isSome := by
  rintro ⟨depth, ends⟩
  have within := retrieve_isSome.mp ends ⟨0, Nat.one_pos⟩ rfl
  exact within.no_cycle (.single ⟨none, List.mem_singleton.mpr rfl⟩)

end YamlReader

end Yella
