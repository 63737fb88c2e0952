import Yella.Lib.SortedList
import Yella.Element.Attribute

/-!
# Elements

`element.c`: a name with a list of attributes kept sorted by type. The list of attribute
nodes is the list of the attributes they hold.
-/

namespace Yella

def attrKey (a : Attribute) : Nat := a.type.toNat

structure Element where
  name : UStr
  attrs : List Attribute
  sorted : SortedList.Sorted attrKey attrs

def createElement (name : UStr) : Element := ⟨name, [], List.Pairwise.nil⟩

def addElementAttribute (elem : Element) (attr : Attribute) : Element :=
  { elem with
    attrs := SortedList.add attrKey attr elem.attrs
    sorted := SortedList.add_sorted attrKey attr elem.sorted }

@[ext] theorem Element.ext' {e f : Element} (hn : e.name = f.name) (ha : e.attrs = f.attrs) :
    e = f := by
  cases e; cases f; simp_all

@[simp] theorem createElement_attrs (name : UStr) : (createElement name).attrs = [] := rfl

@[simp] theorem createElement_name (name : UStr) : (createElement name).name = name := rfl

@[simp] theorem addElementAttribute_name (e : Element) (a : Attribute) :
    (addElementAttribute e a).name = e.name := rfl

@[simp] theorem addElementAttribute_attrs (e : Element) (a : Attribute) :
    (addElementAttribute e a).attrs = SortedList.add attrKey a e.attrs := rfl

/-- The loop over both lists, which ends at the first difference. -/
def compareAttributeLists : List Attribute → List Attribute → Option Int
  | [], _ => some 0
  | _ :: _, [] => none
  | l :: ls, r :: rs =>
    match compareAttributes l r with
    | some 0 => compareAttributeLists ls rs
    | rc => rc

def compareElementAttributes (lhs rhs : Element) : Option Int :=
  if lhs.attrs.length = rhs.attrs.length then compareAttributeLists lhs.attrs rhs.attrs
  else some ((lhs.attrs.length : Int) - rhs.attrs.length)

/-- The nodes of `elem1` that stay in it: those whose type `elem2` lacks, and those that
differ from `elem2`'s. `none` if a comparison is undefined. -/
def diffKept (attrs2 : List Attribute) : List Attribute → Option (List Attribute)
  | [] => some []
  | a :: as => do
    let rest ← diffKept attrs2 as
    match SortedList.find attrKey (attrKey a) attrs2 with
    | none => some (a :: rest)
    | some found =>
      let rc ← compareAttributes a found
      some (if rc = 0 then rest else a :: rest)

/-- The nodes of `elem2` that are linked into `elem1`: those whose type `elem1` lacks. -/
def diffTaken (attrs1 attrs2 : List Attribute) : List Attribute :=
  attrs2.filter (fun a => (SortedList.find attrKey (attrKey a) attrs1).isNone)

theorem diffTaken_eq_nil {attrs1 attrs2 : List Attribute}
    (h : SortedList.Sorted attrKey attrs1) :
    diffTaken attrs1 attrs2 = [] ↔ ∀ a ∈ attrs2, ∃ b ∈ attrs1, b.type = a.type := by
  simp only [diffTaken, List.filter_eq_nil_iff, Option.isNone_iff_eq_none,
    SortedList.find_none attrKey h, not_forall, not_not, attrKey, AttributeType.toNat_inj,
    exists_prop]

end Yella
