import Atrox.Transforms.CloneLoops

/-!
# What is exported of a loop (JSONTransfer.cpp)

An entry of `StoreInfo` becomes a value of `llvm::json`. The loop itself is written by another
project.
-/

namespace Atrox
open IR

/- `llvm::json::Value`, as far as it is used here. -/
inductive Json where
  | boolean (b : Bool)
  | integer (n : Int)
  | string (s : String)
  | array (vs : List Json)
  | object (ms : List (String × Json))

/- The assignment to `operator[]` of an `Object`. -/
def setMember : List (String × Json) → String → Json → List (String × Json)
  | [], k, v => [(k, v)]
  | m :: ms, k, v => if m.1 = k then (k, v) :: ms else m :: setMember ms k v

/- What the body of the loop over the specs makes. -/
def ArgSpec.item (s : ArgSpec) : Json :=
  .object (setMember (setMember (setMember [] "name" (.string s.name)) "direction" (.integer s.direction.toInt))
    "iterator dependent" (.boolean s.iteratorDependent))

/- `toJSON(ArrayRef<ArgSpec>)`. -/
def argSpecsToJSON (argSpecs : List ArgSpec) : Json :=
  .object (setMember [] "argspecs" (.array (argSpecs.map ArgSpec.item)))

/- `toJSON(const FunctionArgSpec &)`. -/
def StoredSpec.toJSON (getName : FuncId → String) (loopToJSON : LoopId → Json) (fas : StoredSpec) : Json :=
  let root := setMember [] "func" (.string (match fas.func with | some f => getName f | none => ""))
  let root := setMember root "loop" (.object [])
  let root := setMember root "args" (.object [])
  match fas.curLoop with
  | none => .object root
  | some l => .object (setMember (setMember root "loop" (loopToJSON l)) "args" (argSpecsToJSON fas.args))

section Read

def Json.member (v : Json) (k : String) : Option Json :=
  match v with
  | .object ms => (ms.find? fun m => m.1 = k).map Prod.snd
  | _ => none

def Json.string? : Json → Option String
  | .string s => some s
  | _ => none

def Json.boolean? : Json → Option Bool
  | .boolean b => some b
  | _ => none

def Json.array? : Json → Option (List Json)
  | .array vs => some vs
  | _ => none

def Json.direction? : Json → Option ArgDirection
  | .integer 1 => some .inbound
  | .integer 2 => some .outbound
  | .integer 3 => some .both
  | _ => none

/- An argument as a reader of the file finds it. -/
def readItem (v : Json) : Option ArgSpec := do
  let name ← (← v.member "name").string?
  let direction ← (← v.member "direction").direction?
  let iteratorDependent ← (← v.member "iterator dependent").boolean?
  return ⟨name, direction, iteratorDependent⟩

def readArgSpecs (v : Json) : Option (List ArgSpec) := do
  (← (← v.member "argspecs").array?).mapM readItem

/- The name of the function, and the loop with the arguments where there are any. -/
def readEntry (v : Json) : Option (String × Option (Json × List ArgSpec)) := do
  let func ← (← v.member "func").string?
  let loop ← v.member "loop"
  let args ← v.member "args"
  return (func, (readArgSpecs args).map fun ss => (loop, ss))

end Read

section RoundTrip

/- An assignment is read back, and the other members stay. -/
@[simp] theorem member_setMember (ms : List (String × Json)) (k k' : String) (v : Json) :
    (Json.object (setMember ms k v)).member k' = if k' = k then some v else (Json.object ms).member k' := by
  unfold Json.member
  induction ms with
  | nil =>
    by_cases hk : k' = k
    · simp [setMember, hk]
    · simp [setMember, hk, Ne.symm hk]
  | cons m ms ih =>
    by_cases hm : m.1 = k
    · by_cases hk : k' = k
      · simp [setMember, hm, hk]
      · simp [setMember, hm, hk, Ne.symm hk]
    · by_cases hk : m.1 = k'
      · have hne : k' ≠ k := fun h => hm (hk.trans h)
        simp [setMember, hk, hne]
      · simpa [setMember, hm, hk] using ih

theorem readItem_item (s : ArgSpec) : readItem s.item = some s := by
  have hdirection : (Json.integer s.direction.toInt).direction? = some s.direction := by
    cases s.direction <;> rfl
  simp [readItem, ArgSpec.item, Json.string?, Json.boolean?, hdirection]

theorem readArgSpecs_argSpecsToJSON (ss : List ArgSpec) : readArgSpecs (argSpecsToJSON ss) = some ss := by
  have hitems : (ss.map ArgSpec.item).mapM readItem = some ss := by
    induction ss with
    | nil => rfl
    | cons s ss ih => simp [readItem_item, ih]
  simp [readArgSpecs, argSpecsToJSON, Json.array?, hitems]

variable (getName : FuncId → String) (loopToJSON : LoopId → Json)

/- What a file tells of an entry. -/
def StoredSpec.told (s : StoredSpec) : String × Option (Json × List ArgSpec) :=
  ((s.func.map getName).getD "", s.curLoop.map fun l => (loopToJSON l, s.args))

theorem readEntry_toJSON (s : StoredSpec) : readEntry (s.toJSON getName loopToJSON) = some (s.told getName loopToJSON) := by
  have hfunc : (match s.func with | some f => getName f | none => "") = (s.func.map getName).getD "" := by
    cases s.func <;> rfl
  unfold StoredSpec.toJSON StoredSpec.told
  rw [hfunc]
  cases s.curLoop with
  | none =>
    have hempty : readArgSpecs (.object []) = none := rfl
    simp [readEntry, Json.string?, hempty]
  | some l => simp [readEntry, Json.string?, readArgSpecs_argSpecsToJSON]

end RoundTrip

end Atrox
