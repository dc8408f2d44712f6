import Footprint.Text.Quoted

/-!
# Faults

Everything that can stop a step of the analysis.  A fault is a cause.  Its
wording, where it has one, is in `Fault.message`.
-/

namespace Footprint

/-- Why a step stopped. -/
inductive Fault where
  /-- No rule says how to lay out a variable of this type. -/
  | unknownType (type : String)
  /-- An element was asked of a type that is no array. -/
  | notArray (type : String)
  /-- A size was asked of a text that is no type name and no suffix form of one. -/
  | notClean (type : String)
  /-- A size was asked of a type that is not in the table. -/
  | undefinedType
  /-- A size was needed while it was still being computed, or after that had failed. -/
  | sizeUnknown
  /-- The expansion of a type never ends. -/
  | endless
  /-- An address with no block, and the last address that has one. -/
  | badAddress (address : Int) (last : Nat)
  /-- A position outside a list. -/
  | outOfRange
  /-- A place in the memory that holds no block. -/
  | noBlock
  /-- A text that is no number. -/
  | badNumber (text : String)
  /-- A number with too many digits. -/
  | longNumber
  /-- A configured type that is no text. -/
  | typeNotText
  /-- A declaration without a type. -/
  | untyped
  /-- A configured name that is a list or an object. -/
  | nameNotKey
  /-- A configured name that is a number where a text is needed. -/
  | nameNotText
  /-- A parameter whose name does not say which function it belongs to. -/
  | unowned
  /-- No function of this name is known. -/
  | functionNotFound (name : String)
  /-- A file that was to be measured and is not there. -/
  | missingFile
  /-- No variable of the wanted form was left. -/
  | noneLeft
  /-- A command line without a function name. -/
  | usage
deriving Repr, DecidableEq, Inhabited

namespace Fault

/-- The most characters of a text that a message quotes. -/
def quoteLimit : Nat := 200

/-- The wording of a fault, for those that have one. -/
def message : Fault → Option String
  | .unknownType t => some ("Unknown type for allocation: " ++ t)
  | .notArray t => some ("Type " ++ t ++ " is not an array type.")
  | .notClean t => some ("Type " ++ t ++ " is not clean.")
  | .badAddress a last =>
    some ("Invalid memory address: " ++ toString a ++ ", max address is " ++ toString last)
  | .badNumber t =>
    some ("invalid literal for int() with base 10: " ++
      String.ofList ((Text.quoted t).toList.take quoteLimit))
  | .functionNotFound n => some ("Function '" ++ n ++ "' not found")
  | .usage =>
    some "Usage: python main.py <function_name> [project_path] [output_dir] [--memory]"
  | _ => none

end Fault

end Footprint
