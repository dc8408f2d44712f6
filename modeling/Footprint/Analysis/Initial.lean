import Footprint.Analysis.Access

/-!
# Global initialisers

The initialiser of a global pointer is read without a body around it.  It is the
address of an access path, or another pointer.
-/

namespace Footprint

/-- The access path that an expression denotes, with all names global.  An index that is no constant
means the whole array. -/
def Node.globalAccess? : Node → Option String
  | .mk i cs _ =>
    match i.kind with
    | .implicit | .paren | .cast =>
      match cs with
      | c :: _ => globalAccess? c
      | [] => none
    | .declRef => some i.spelling
    | .memberRef =>
      match cs with
      | c :: _ => ((globalAccess? c).filter (!·.isEmpty)).map fun base => base ++ "." ++ i.spelling
      | [] => none
    | .subscript =>
      match cs with
      | c :: index :: _ =>
        ((globalAccess? c).filter (!·.isEmpty)).map fun base =>
          match index.integerText? with
          | some text => base ++ "[" ++ text ++ "]"
          | none => base
      | _ => none
    | _ => none

/-- The address that a global initialiser gives to a pointer. -/
def Memory.initialTarget (T : TypeTable) (pointers : Table String (Option Int)) :
    Node → MemM (Option Int)
  | .mk i cs _ =>
    match i.kind with
    | .implicit | .paren | .cast =>
      match cs with
      | c :: _ => initialTarget T pointers c
      | [] => return none
    | .unary =>
      if i.tokens.contains "&" then
        match (cs.head?.bind Node.globalAccess?).filter (!·.isEmpty) with
        | some name => do return (← Memory.resolve T name).map Int.ofNat
        | none => return none
      else return none
    | .declRef => return (pointers.get? i.spelling).join
    | _ => return none

end Footprint
