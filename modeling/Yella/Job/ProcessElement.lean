import Yella.Element.Pack

/-!
# One observed element

The statements of `state_db.c` on one database, and `process_element` of `job.c`. A result
of `none` is undefined behaviour of the program.
-/

namespace Yella

/-- The rows of the table `state`: the packed attributes by element name. -/
structure StateDb where
  rows : UStr → Option (Option FbAttrArray)

def StateDb.empty : StateDb := ⟨fun _ => none⟩

section
variable (utf : Utf)

/-- `some none` is the absence of a row. -/
def getElementFromStateDb (st : StateDb) (elemName : UStr) : Option (Option Element) :=
  match st.rows elemName with
  | none => some none
  | some packed => (createElementWithAttrs utf elemName packed).map some

def insertIntoStateDb (st : StateDb) (elem : Element) : Option StateDb := do
  let attrs ← packElementAttributes utf elem
  some ⟨fun n => if n = elem.name then some attrs else st.rows n⟩

/-- `UPDATE` changes a row only where there is one. -/
def updateIntoStateDb (st : StateDb) (elem : Element) : Option StateDb := do
  let attrs ← packElementAttributes utf elem
  some ⟨fun n => if n = elem.name then (st.rows n).map (fun _ => attrs) else st.rows n⟩

def deleteFromStateDb (st : StateDb) (elemName : UStr) : StateDb :=
  ⟨fun n => if n = elemName then none else st.rows n⟩

/-- `yella_fb_file_condition` -/
inductive FileCondition where
  | added
  | changed
  | removed
  deriving DecidableEq, Repr

structure Job where
  configName : UStr
  recipient : UStr
  includes : List UStr
  excludes : List UStr
  attrTypes : List AttributeType

/-- The arguments of `add_accumulator_message`; `attrs` is what `elem` holds then. -/
structure Message where
  recipient : UStr
  configName : UStr
  name : UStr
  attrs : Option (List Attribute)
  cond : FileCondition

def message (j : Job) (name : UStr) (attrs : Option (List Attribute)) (cond : FileCondition) :
    Message :=
  { recipient := j.recipient, configName := j.configName, name, attrs, cond }

def processElement (j : Job) (name : UStr) (elem : Option Element) (db : StateDb) :
    Option (StateDb × Option Message) := do
  let dbElem ← getElementFromStateDb utf db name
  match dbElem, elem with
  | none, none => some (db, none)
  | none, some elem =>
    let db' ← insertIntoStateDb utf db elem
    some (db', some (message j name (some elem.attrs) .added))
  | some _, none =>
    some (deleteFromStateDb db name, some (message j name none .removed))
  | some dbElem, some elem =>
    let cmp ← compareElementAttributes elem dbElem
    if cmp ≠ 0 then
      let db' ← updateIntoStateDb utf db elem
      -- the assertion of `diff_elements`
      if elem.name ≠ dbElem.name then none
      else
        let kept ← diffKept dbElem.attrs elem.attrs
        -- The nodes taken from `dbElem` are in both lists. `destroy_element(db_elem)` frees
        -- them, and the message then reads them through `elem`.
        if diffTaken elem.attrs dbElem.attrs ≠ [] then none
        else some (db', some (message j name (some kept) .changed))
    else some (db, none)

/-- An argument pair of `process_element`. -/
structure Observation where
  name : UStr
  elem : Option Element
  named : ∀ e ∈ elem, e.name = name

/-- Calls one after the other, with the messages in the order they are added. -/
def processAll (j : Job) (db : StateDb) : List Observation → Option (StateDb × List Message)
  | [] => some (db, [])
  | o :: obs => do
    let (db₁, m) ← processElement utf j o.name o.elem db
    let (db₂, ms) ← processAll j db₁ obs
    some (db₂, m.toList ++ ms)

end

end Yella
