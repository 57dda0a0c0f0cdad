import ManageOurHome.Text

/-! @src apps/api (`serde_json::Value`) | layer:model | family:text

    The values of a JSON text, and what the code asks of them. `serde_json` is not part of the repository: a body is the
    value it reads, if it reads one. -/

namespace Home.Json

/-- An integer of 64 bits, or any other number: what the code never reads is left out of it. -/
inductive Number where
  | PosInt (n : ℕ)
  | NegInt (n : ℤ)
  | Float

inductive Value where
  | Null
  | Bool (b : Bool)
  | Number (n : Number)
  | String (t : Text)
  | Array (items : List Value)
  | Object (fields : List (Text × Value))

def Value.asStr : Value → Option Text
  | .String t => some t
  | _ => none

def Value.asU64 : Value → Option ℕ
  | .Number (.PosInt n) => some n
  | _ => none

def Value.asArray : Value → Option (List Value)
  | .Array items => some items
  | _ => none

/-- The field of a name, of an object. -/
def get (key : Text) (fields : List (Text × Value)) : Option Value :=
  (fields.find? fun field => field.1 = key).map Prod.snd

def Value.get (key : Text) : Value → Option Value
  | .Object fields => Json.get key fields
  | _ => none

end Home.Json
