import ModCheck.RichText.Check
import ModCheck.Schema
import ModCheck.Validation.Options

/-
  Checking the value of a property against the type of its field. An empty value asks for the
  default and is never wrong.
-/

namespace ModCheck

open Text (Piece splitPieces isDecimalDigit)

/-! ## Numbers -/

/-- Digits of any script, at least one. -/
def isDigits (cs : List Char) : Bool :=
  !cs.isEmpty && cs.all isDecimalDigit

/-- Digits with an optional minus sign before them. -/
def isIntegerText : List Char → Bool
  | '-' :: cs => isDigits cs
  | cs => isDigits cs

/-- Nothing, or a mark, an optional sign and digits. -/
def isExponentText : List Char → Bool
  | [] => true
  | mark :: cs =>
    (mark == 'e' || mark == 'E') &&
      match cs with
      | '+' :: ds => isDigits ds
      | '-' :: ds => isDigits ds
      | ds => isDigits ds

/-- Digits with an optional point among them, and an optional exponent. -/
def isUnsignedText (cs : List Char) : Bool :=
  let whole := cs.takeWhile isDecimalDigit
  match cs.dropWhile isDecimalDigit with
  | '.' :: rest =>
    (!whole.isEmpty || rest.head?.any isDecimalDigit) &&
      isExponentText (rest.dropWhile isDecimalDigit)
  | rest => !whole.isEmpty && isExponentText rest

/-- A number with an optional sign before it. -/
def isFloatText : List Char → Bool
  | '+' :: cs => isUnsignedText cs
  | '-' :: cs => isUnsignedText cs
  | cs => isUnsignedText cs

/-- A whole number from 0 to 255, in plain digits. -/
def isByteText (cs : List Char) : Bool :=
  !cs.isEmpty && cs.all Char.isDigit && Decimal.digitsFrom 0 cs ≤ 255

/-! ## Single values -/

/-- An error about a piece of a value. -/
def pieceIssue (code : Code) (text : String) (piece : Piece) : Issue :=
  { severity := .error, code, text, range := piece.range }

/-- The issue of a single value, if it does not have the type. -/
def scalarIssue? (schema : ObjectSchema) (limit : Nat) (key : String) (piece : Piece) :
    FieldType → Option Issue :=
  let text := String.ofList piece.text
  let expected (valid : Bool) (code : Code) (what : String) : Option Issue :=
    if valid then none
    else
      some (pieceIssue code ("'" ++ key ++ "' expects " ++ what ++ ", got '" ++ text ++ "'") piece)
  fun
  | .boolean =>
    expected (text.toLower == "true" || text.toLower == "false") .invalidBoolean "true or false"
  | .integer => expected (isIntegerText piece.text) .invalidInteger "an integer"
  | .float => expected (isFloatText piece.text) .invalidFloat "a number"
  | .byte => expected (isByteText piece.text) .invalidByte "a whole number from 0 to 255"
  | .enumeration name =>
    let members := (schema.members? name).getD []
    if members.contains text then none
    else
      some (.ofUnknown limit .invalidEnum ("'" ++ text ++ "' is not a member of " ++ name) text
        members piece.range)
  | _ => none

/-! ## Values of several numbers -/

/-- The names of the numbers that a value of the type consists of. -/
def partNames? : FieldType → Option (List String)
  | .vector2 => some ["X", "Y"]
  | .tileCoord => some ["X", "Y"]
  | .vector3 => some ["X", "Y", "Z"]
  | .rectangle => some ["X", "Y", "width", "height"]
  | _ => none

def partsCode (type : FieldType) : Code :=
  if type = .rectangle then .invalidRectangle else .invalidVector

/-- The issues of a value of several numbers; a rectangle's are whole. -/
def compositeIssues (key : String) (type : FieldType) (names : List String) (pieces : List Piece)
    (whole : CharRange) : List Issue :=
  if pieces.length != names.length then
    [{ severity := .error, code := partsCode type
       text := "'" ++ key ++ "' expects " ++ toString names.length
         ++ " comma-separated components (" ++ ",".intercalate names ++ ") but got "
         ++ toString pieces.length
       range := whole }]
  else
    (pieces.zip names).filterMap fun (piece, name) =>
      let integral := type = .rectangle
      if (if integral then isIntegerText piece.text else isFloatText piece.text) then none
      else
        some (pieceIssue (partsCode type)
          (name ++ " component of '" ++ key ++ "' must be "
            ++ (if integral then "an integer" else "a number")
            ++ ", got '" ++ String.ofList piece.text ++ "'") piece)

/-! ## Lists -/

set_option linter.unusedVariables false in
/-- Cuts a list into groups of `n`. -/
def chunks {α : Type} (n : Nat) (xs : List α) : List (List α) :=
  if h : xs = [] ∨ n = 0 then [] else xs.take n :: chunks n (xs.drop n)
termination_by xs.length
decreasing_by
  have : xs.length ≠ 0 := fun e => h (.inl (List.length_eq_zero_iff.1 e))
  simp only [List.length_drop]
  omega

/-- From the start of the first piece to the end of the last. -/
def piecesRange (pieces : List Piece) : CharRange :=
  ⟨(pieces.head?.map (·.range.start)).getD 0, (pieces.getLast?.map (·.range.stop)).getD 0⟩

/-- The parts of a value between commas, without blanks around them. -/
def components (value : String) : List Piece :=
  (splitPieces ',' 0 value.toList).map Piece.trim

/-- A value without the blanks around it. -/
def trimmedPiece (value : String) : Piece :=
  (Piece.mk value.toList ⟨0, value.length⟩).trim

/-- The issues of a list. Elements of several numbers stand one after the other. -/
def listIssues (schema : ObjectSchema) (limit : Nat) (key value : String) (element : FieldType) :
    List Issue :=
  let pieces := components value
  match partNames? element with
  | some names =>
    if pieces.length % names.length != 0 then
      [{ severity := .error, code := partsCode element
         text := "'" ++ key ++ "' expects groups of " ++ toString names.length ++ " components ("
           ++ ",".intercalate names ++ ") but got " ++ toString pieces.length ++ " values"
         range := (trimmedPiece value).range }]
    else
      (chunks names.length pieces).flatMap fun group =>
        compositeIssues key element names group (piecesRange group)
  | none =>
    (pieces.filter (!·.text.isEmpty)).filterMap fun piece =>
      scalarIssue? schema limit key piece element

/-! ## Values -/

/-- The issues of a formula. -/
def formulaValueIssues (schema : FormulaSchema) (limit : Nat) (value : String) (allowX : Bool) :
    List Issue :=
  match Formula.parse value with
  | .ok formula => formula.check ⟨schema.operators, limit, allowX⟩
  | .error fault =>
    let place := min fault.offset value.length
    [{ severity := .error, code := .formulaSyntax
       text := "Formula syntax error: " ++ fault.message
       range := ⟨place, min (place + 1) value.length⟩ }]

/-- The issues of a value of a type; `allowX` tells whether a formula may use the placeholder. -/
def typedIssues (schema : Schema) (options : Options) (key value : String) (allowX : Bool) :
    FieldType → List Issue
  | .formula => formulaValueIssues schema.formulas options.maxDistance value allowX
  | .richText =>
    RichText.check
      ⟨schema.formulas.operators, schema.richText, options.maxDistance, options.styleHints⟩ value
  | .list element => listIssues schema.objects options.maxDistance key value element
  | type =>
    match partNames? type with
    | some names => compositeIssues key type names (components value) (trimmedPiece value).range
    | none =>
      (scalarIssue? schema.objects options.maxDistance key (trimmedPiece value) type).toList

/-- The issues of the value of a field. -/
def valueIssues (schema : Schema) (options : Options) (key value : String) (field : Field) :
    List Issue :=
  if value.toList.all Text.isBlank || field.isVirtual then []
  else typedIssues schema options key value field.allowsX field.type

/-- An issue of a value that starts at `origin`, as a message. -/
def Issue.inFile (schema : FormulaSchema) (options : Options) (value : String) (origin : Position)
    (file context : String) (issue : Issue) : Message :=
  let span := issue.range.toSpan value.toList origin
  { Message.about issue.severity issue.code issue.text file span with
    context := some context
    suggestion := issue.suggestion
    corrections := (issue.replacement.map fun text => Correction.mk file span text).toList
    formulaReference := issue.operator
    documentationUrl := issue.operator.bind (schema.linkTo? options.documentationUrl) }

/-- The messages about the value of a field of a class. -/
def valueMessages (schema : Schema) (options : Options) (className key value : String)
    (field : Field) (origin : Position) (file : String) : List Message :=
  (valueIssues schema options key value field).map
    (·.inFile schema.formulas options value origin file (className ++ "." ++ key))

end ModCheck
