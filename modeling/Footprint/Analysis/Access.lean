import Footprint.Analysis.Pointers

/-!
# Which variable an expression means

Three readings of an expression: the access path it denotes, the pointer it is
built on, and the address it has as the value of a pointer.
-/

namespace Footprint

/-- The first token of an integer, or of an expression that starts with digits. -/
def Node.integerText? (n : Node) : Option String :=
  if n.kind = .integer then n.tokens.head?
  else n.tokens.head?.filter Text.allDigits

namespace Walk

/-- The path of an element: through a pointer it is what the pointer points to. -/
def elementName (s : Scope) (base : String) (index : Node) : WalkM String := do
  match ← pointedName? s base with
  | some name => return name
  | none => return base ++ "[" ++ index.integerText?.getD "?" ++ "]"

mutual

/-- The access path that an expression denotes. -/
def accessName (s : Scope) : Node → WalkM (Option String)
  | .mk i cs _ =>
    match i.kind with
    | .cast => firstAccess s cs
    | .implicit | .paren =>
      match cs with
      | c :: _ => accessName s c
      | [] => return none
    | .unary =>
      if Node.operatorOf i = "&" then
        match cs with
        | c :: _ => accessName s c
        | [] => return none
      else return none
    | .declRef => return some i.spelling
    | .memberRef =>
      match cs with
      | c :: _ => do
        match (← accessName s c).filter (!·.isEmpty) with
        | none => return none
        | some base =>
          let base := (← pointedName? s base).getD base
          return some (base ++ "." ++ i.spelling)
      | [] => return none
    | .subscript =>
      match cs with
      | c :: index :: _ => do
        match (← accessName s c).filter (!·.isEmpty) with
        | none => return none
        | some base => return some (← elementName s base index)
      | _ => return none
    | _ => return none

/-- The first access path among expressions. -/
def firstAccess (s : Scope) : List Node → WalkM (Option String)
  | [] => return none
  | c :: rest => do
    match (← accessName s c).filter (!·.isEmpty) with
    | some name => return some name
    | none => firstAccess s rest

end

mutual

/-- The name of the pointer that an expression is built on. -/
def pointerName (s : Scope) : Node → WalkM (Option String)
  | .mk i cs d =>
    match i.kind with
    | .cast | .binary | .compoundAssign | .conditional => firstPointer s cs
    | .implicit | .paren | .subscript =>
      match cs with
      | c :: _ => pointerName s c
      | [] => return none
    | .unary =>
      if Node.operatorOf i = "*" || Node.operatorOf i = "&" then
        match cs with
        | c :: _ => pointerName s c
        | [] => return none
      else return none
    | .memberRef => accessName s (.mk i cs d)
    | .declRef => return some i.spelling
    | _ => return none

/-- The first pointer name among expressions. -/
def firstPointer (s : Scope) : List Node → WalkM (Option String)
  | [] => return none
  | c :: rest => do
    match (← pointerName s c).filter (!·.isEmpty) with
    | some name => return some name
    | none => firstPointer s rest

end

/-- The address of an optional name in a body. -/
def addressIn? (s : Scope) (name : Option String) : WalkM (Option Int) := do
  match name.filter (!·.isEmpty) with
  | some name => return (← addressIn s name).map Int.ofNat
  | none => return none

/-- The address that an expression has as the value of a pointer, when it is not wrapped. -/
def bareTarget (s : Scope) (n : Node) : WalkM (Option Int) := do
  if n.kind = .unary && Node.operatorOf n.info = "&" then
    match n.children with
    | c :: _ => do addressIn? s (← accessName s c)
    | [] => return none
  else match ← pointerKey? s (← pointerName s n) with
    | some key => targetOf s key
    | none =>
      if n.kind = .declRef then
        match ← targetOf s n.spelling with
        | some a => return some a
        | none => addressIn? s (some n.spelling)
      else return none

/-- The address that an expression has as the value of a pointer. -/
def pointerTarget (s : Scope) : Node → WalkM (Option Int)
  | .mk i cs d =>
    match i.kind with
    | .cast | .implicit | .paren =>
      match cs with
      | c :: _ => pointerTarget s c
      | [] => return none
    | _ => bareTarget s (.mk i cs d)

/-- The target of the pointer that the operand of a dereference is built on. -/
def derefTarget (s : Scope) (operand : Node) : WalkM (Option Int) := do
  targetOfName s (← pointerName s operand)

end Walk

end Footprint
