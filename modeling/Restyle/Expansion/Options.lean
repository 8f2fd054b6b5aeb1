import Restyle.Json.Reader
import Restyle.Text.Identifier
import Restyle.Text.Search

/-! The options of an expansion: the names of the attributes it looks for, and the names it uses in
what it generates. -/

namespace Restyle

structure Options where
  /-- The attribute whose value goes to the runtime. -/
  attrsAttribute : String := "stylex-attrs"
  /-- Another name of it that is an identifier, so that it can also be a shorthand or a spread. -/
  shorthand : Option String := some "stylex"
  /-- The attribute with an inline style definition. -/
  createAttribute : String := "stylex-create"
  /-- The attribute that says where the definition goes among the arguments. -/
  positionAttribute : String := "stylex-create-at"
  /-- The module of the runtime. -/
  importSource : String := "@stylexjs/stylex"
  /-- The name of the runtime in the generated code. -/
  runtimeAlias : String := "__stylex"
  /-- The name of the constant with the hoisted definitions. -/
  hoistVariable : String := "__styles"
  deriving Repr, DecidableEq

instance : Inhabited Options := ⟨{}⟩

inductive OptionName where
  | attrsAttribute | shorthand | createAttribute | positionAttribute | importSource | runtimeAlias
  | hoistVariable
  deriving Repr, DecidableEq

namespace OptionName

/-- In the order in which values without names are given. -/
def all : List OptionName := [
  attrsAttribute, shorthand, createAttribute, positionAttribute, importSource, runtimeAlias,
  hoistVariable]

/-- The name in JSON. -/
def key : OptionName → String
  | attrsAttribute => "attrsAttributeName"
  | shorthand => "shorthandAttrName"
  | createAttribute => "createAttributeName"
  | positionAttribute => "createPositionAttributeName"
  | importSource => "importSource"
  | runtimeAlias => "runtimeAlias"
  | hoistVariable => "hoistVarName"

def ofKey? (key : String) : Option OptionName := all.find? (·.key = key)

theorem ofKey?_key (n : OptionName) : ofKey? n.key = some n := by
  cases n <;> decide

end OptionName

namespace Options

def get (o : Options) : OptionName → Option String
  | .attrsAttribute => some o.attrsAttribute
  | .shorthand => o.shorthand
  | .createAttribute => some o.createAttribute
  | .positionAttribute => some o.positionAttribute
  | .importSource => some o.importSource
  | .runtimeAlias => some o.runtimeAlias
  | .hoistVariable => some o.hoistVariable

def set (o : Options) (value : String) : OptionName → Options
  | .attrsAttribute => { o with attrsAttribute := value }
  | .shorthand => { o with shorthand := some value }
  | .createAttribute => { o with createAttribute := value }
  | .positionAttribute => { o with positionAttribute := value }
  | .importSource => { o with importSource := value }
  | .runtimeAlias => { o with runtimeAlias := value }
  | .hoistVariable => { o with hoistVariable := value }

@[simp] theorem get_set (o : Options) (value : String) (n : OptionName) :
    (o.set value n).get n = some value := by
  cases n <;> rfl

theorem get_set_of_ne (o : Options) (value : String) {n m : OptionName} (h : n ≠ m) :
    (o.set value n).get m = o.get m := by
  cases n <;> cases m <;> simp_all [get, set]

/-! ### Reading -/

/-- Takes the value of one option: a text, or nothing for the shorthand. -/
def take? (o : Options) (n : OptionName) (value : Json) : Option Options :=
  match n, value with
  | n, .string (some s) => some (o.set s n)
  | .shorthand, .null => some { o with shorthand := none }
  | _, _ => none

/-- Takes the members known by name. One that comes twice is refused, other names are skipped. -/
def takeMembers? (o : Options) (taken : List OptionName) : List (String × Json) → Option Options
  | [] => some o
  | (key, value) :: rest =>
    match OptionName.ofKey? key with
    | none => takeMembers? o taken rest
    | some n =>
      if taken.contains n then none
      else do takeMembers? (← o.take? n value) (n :: taken) rest

/-- Takes values in the order of the names. -/
def takeItems? (o : Options) : List OptionName → List Json → Option Options
  | _, [] => some o
  | [], _ :: _ => none
  | n :: ns, value :: rest => do takeItems? (← o.take? n value) ns rest

/-- Options are an object, or the list of their values in order, cut off anywhere. Those that are not
given keep their defaults. -/
def ofJson? : Json → Option Options
  | .object members => do takeMembers? {} [] (← Json.named? members)
  | .array items => takeItems? {} OptionName.all items
  | _ => none

/-! ### Checking -/

end Options

/-- Why options would give broken code. -/
inductive InvalidOption where
  | empty (option : OptionName)
  | notIdentifier (option : OptionName) (value : String)
  deriving Repr, DecidableEq

def InvalidOption.message : InvalidOption → String
  | empty option => "`" ++ option.key ++ "` must not be empty"
  | notIdentifier option value =>
    "`" ++ option.key ++ "` must be a valid JavaScript identifier, got `" ++ value ++ "`"

namespace Options

/-- The options that must hold something. -/
def needed : List OptionName := [.attrsAttribute, .createAttribute, .positionAttribute, .importSource]

/-- The options that become names in code. -/
def identifiers : List OptionName := [.runtimeAlias, .hoistVariable, .shorthand]

/-- The first rule that the options break. -/
def invalid? (o : Options) : Option InvalidOption :=
  (needed.find? fun n => o.get n = some "").map .empty
  <|> identifiers.findSome? fun n => do
    let value ← o.get n
    if Text.isPlainIdentifier value.toList then none else some (.notIdentifier n value)

/-- The name selects the attribute whose value goes to the runtime. -/
def isAttrsName (o : Options) (name : String) : Bool :=
  name = o.attrsAttribute || o.shorthand = some name

/-- The names a source must contain one of to have anything to expand. -/
def attributeNames (o : Options) : List String :=
  o.attrsAttribute :: o.shorthand.toList ++ [o.createAttribute, o.positionAttribute]

/-- A source can contain something to expand. -/
def mentionedIn (o : Options) (source : String) : Bool :=
  o.attributeNames.any fun name => Text.contains name.toList source.toList

end Options

end Restyle
