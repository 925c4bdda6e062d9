import ModuLang.Text.Quoted
import ModuLang.Text.Utf8

/-!
# Errors

An error of the language is a `Fault`: a `Cause` together with the source line that it is reported
at. Causes say what went wrong; their `family` and their wording are given here, in one place each.

Some failures are not errors of the language: the machine that runs the program gives up. They are
`Crash`es, and nothing in a program can observe them.
-/

namespace ModuLang

/-- Why the operating system refuses a path. -/
inductive OsErrorKind where
  | missing
  | notADirectory
  | isADirectory
  | nameTooLong
  | noSpace
  deriving DecidableEq, Repr

/-- The number of an operating system error. -/
def OsErrorKind.number : OsErrorKind → Nat
  | .missing => 2
  | .notADirectory => 20
  | .isADirectory => 21
  | .nameTooLong => 36
  | .noSpace => 28

/-- The wording of an operating system error. -/
def OsErrorKind.message : OsErrorKind → String
  | .missing => "No such file or directory"
  | .notADirectory => "Not a directory"
  | .isADirectory => "Is a directory"
  | .nameTooLong => "File name too long"
  | .noSpace => "No space left on device"

/-- An error of the operating system, and the path that it refused, if it was one. -/
structure OsError where
  kind : OsErrorKind
  path : Option String
  deriving DecidableEq, Repr

/-- An operating system error as it is reported. -/
def OsError.message (e : OsError) : String :=
  let head := s!"[Errno {e.kind.number}] {e.kind.message}"
  match e.path with
  | some path => s!"{head}: {Text.quoted path}"
  | none => head

/-- Why a library cannot be used. -/
inductive LibraryDefect where
  | unopened (kind : OsErrorKind)
  | unreadable (kind : OsErrorKind)
  | tooShort
  | notALibrary
  | wrongClass
  | wrongVersion
  deriving DecidableEq, Repr

/-- The wording of a defect of a library. -/
def LibraryDefect.message : LibraryDefect → String
  | .unopened kind => s!"cannot open shared object file: {kind.message}"
  | .unreadable kind => s!"cannot read file data: {kind.message}"
  | .tooShort => "file too short"
  | .notALibrary => "invalid ELF header"
  | .wrongClass => "wrong ELF class: ELFCLASS32"
  | .wrongVersion => "ELF file version does not match current one"

/-- The machine gives up for a reason that is no error of the language. -/
inductive Crash where
  /-- An integer is too large for a float. -/
  | integerTooLarge
  /-- A text is one that the machine refuses: a path, or a numeral that is too long to be read or
  written. -/
  | unreadableText
  /-- A file that has to be text is not UTF-8. -/
  | undecodable
  /-- A file cannot be opened. -/
  | os (error : OsError)
  /-- A key that has to be there is not. -/
  | missingKey
  /-- The nesting exceeds what the machine can follow. -/
  | stackOverflow
  deriving DecidableEq, Repr

/-- What a parser wanted to see next. -/
inductive Expectation where
  | endOfStatement
  | variableName
  | assignmentTo (name : String)
  | importTarget
  | importAlias
  | functionName
  | parameterList (function : String)
  | parameterName
  | endOfParameters
  | bodyStart
  | propertyName
  | argumentEnd
  | literalKey
  | literalColon (key : String)
  | literalEnd
  deriving DecidableEq, Repr

/-- The wording of an expectation. -/
def Expectation.message : Expectation → String
  | .endOfStatement => "end of statement"
  | .variableName => "a variable name after 'let'"
  | .assignmentTo name => s!"'=' after 'let {name}'"
  | .importTarget => "a string after 'import'"
  | .importAlias => "an identifier or '*' after 'as'"
  | .functionName => "an identifier after 'fn'"
  | .parameterList function => s!"'(' after 'fn {function}'"
  | .parameterName => "a parameter name"
  | .endOfParameters => "')' after parameters"
  | .bodyStart => "'\x7b' to open the body"
  | .propertyName => "a property name after '.'"
  | .argumentEnd => "',' or ')' after argument"
  | .literalKey => "a property name in object literal"
  | .literalColon key => s!"':' after property name '{key}'"
  | .literalEnd => "',' or '\x7d' in object literal"

/-- Where and why a text is not JSON. -/
inductive JsonDefect where
  | byteOrderMark
  | expectingValue
  | expectingComma
  | expectingColon
  | expectingName
  | extraData
  | unterminatedString
  | invalidControl
  | invalidEscape
  | invalidUnicodeEscape
  deriving DecidableEq, Repr

/-- The wording of a defect. -/
def JsonDefect.message : JsonDefect → String
  | .byteOrderMark => "Unexpected UTF-8 BOM (decode using utf-8-sig)"
  | .expectingValue => "Expecting value"
  | .expectingComma => "Expecting ',' delimiter"
  | .expectingColon => "Expecting ':' delimiter"
  | .expectingName => "Expecting property name enclosed in double quotes"
  | .extraData => "Extra data"
  | .unterminatedString => "Unterminated string starting at"
  | .invalidControl => "Invalid control character at"
  | .invalidEscape => "Invalid \\escape"
  | .invalidUnicodeEscape => "Invalid \\uXXXX escape"

/-- Why a number of seconds is no time that can be shown. -/
inductive TimestampDefect where
  | notANumber
  | infinite
  | yearOutOfRange (year : Int)
  | outsideClock
  | clockEnd
  deriving DecidableEq, Repr

/-- The wording of a defect. -/
def TimestampDefect.message : TimestampDefect → String
  | .notANumber => "cannot convert float NaN to integer"
  | .infinite => "cannot convert float infinity to integer"
  | .yearOutOfRange year => s!"year {year} is out of range"
  | .outsideClock => "timestamp out of range for platform time_t"
  | .clockEnd => "[Errno 75] Value too large for defined data type"

/-- Why a power has no float value. -/
inductive PowerDefect where
  | domain
  | range
  | integerTooLarge
  deriving DecidableEq, Repr

/-- The wording of a defect. -/
def PowerDefect.message : PowerDefect → String
  | .domain => "math domain error"
  | .range => "math range error"
  | .integerTooLarge => "int too large to convert to float"

/-- What went wrong in a program. The last cause is no error of the language: the machine gave up. -/
inductive Cause where
  -- Reading.
  | unexpectedText (text : String)
  | literalTooLarge (digits : String)
  | commentRunsOn
  | unterminatedComment
  | expected (what : Expectation) (got : String)
  | expectedExpression (got : String)
  | strayBrace
  | returnOutsideFunction
  | bodyNotClosed (line : Int)
  -- Evaluating.
  | reservedName (name : String)
  | notFound (what name : String)
  | wrongArity (function : String) (wanted given : Nat)
  | unknownValue (shown : String)
  | sumOverflow
  | cannotAdd (left right : String)
  | cannotSubtract (right left : String)
  | conditionNotBoolean
  | notAFunction (name : String)
  | notAnObject (shown : String)
  | unknownNode
  | recursionTooDeep
  -- Importing.
  | packageNotFound (name : String)
  | sourceUnreadable (error : OsError)
  | sourceUndecodable (path : String) (defect : Text.Utf8Defect)
  | inFile (cause : Cause) (path : String) (line : Int)
  -- Converting.
  | cannotConvertText (text target : String)
  | cannotConvertNumber (shown target : String)
  | intArgument
  | floatArgument
  | strArgument
  | inputDisabled
  | exitDisabled
  -- Arrays.
  | corruptedArray
  | emptyArray
  | arrayExpected (function : String)
  | atArguments
  | noElement
  -- Mathematics.
  | numberRequired (function : String)
  | numbersRequired (function : String)
  | divArguments
  | divisionByZero
  | resultOverflow
  | powerUndefined (defect : PowerDefect)
  | rootOfNegative
  | notFinite (function : String)
  -- Files, commands and libraries.
  | pathNotText (function : String)
  | fileRefused (error : OsError)
  | commandNotText
  | commandTooLong
  | commandFailed (status : Int) (report : String)
  | callTooShort
  | libraryNotText
  | symbolNotText
  | callArgumentNotText
  | libraryUnusable (path : String) (defect : LibraryDefect)
  | symbolNotFound (name : String)
  -- JSON.
  | setReceiver
  | setKeyNotText
  | setMethod (key : String)
  | stringifyArgument
  | parseArgument
  | invalidJson (defect : JsonDefect) (line column : Nat)
  | jsonScalar
  | cannotEncode (shown : String)
  -- Time.
  | timeArgument (function : String)
  | invalidTimestamp (function : String) (defect : TimestampDefect)
  -- The machine.
  | givenUp (crash : Crash)
  deriving DecidableEq, Repr

/-- The families that errors are reported under. -/
inductive Family where
  | lexical
  | invalidInteger
  | openComment
  | grammar
  | unbound
  | arity
  | kind
  | recursion
  | importing
  | host
  deriving DecidableEq, Repr

/-- The family of a cause. -/
def Cause.family : Cause → Family
  | .unexpectedText _ | .unterminatedComment => .lexical
  | .literalTooLarge _ => .invalidInteger
  | .commentRunsOn => .openComment
  | .expected _ _ | .expectedExpression _ | .strayBrace | .returnOutsideFunction
  | .bodyNotClosed _ | .reservedName _ => .grammar
  | .notFound _ _ | .noElement => .unbound
  | .wrongArity _ _ _ => .arity
  | .recursionTooDeep => .recursion
  | .packageNotFound _ | .sourceUnreadable _ | .sourceUndecodable _ _ | .inFile _ _ _ => .importing
  | .unknownNode | .inputDisabled | .exitDisabled | .divisionByZero | .resultOverflow
  | .powerUndefined _ | .rootOfNegative | .notFinite _ | .fileRefused _ | .commandTooLong
  | .commandFailed _ _ | .libraryUnusable _ _ | .symbolNotFound _ | .invalidJson _ _ _
  | .invalidTimestamp _ _ | .givenUp _ => .host
  | .unknownValue _ | .sumOverflow | .cannotAdd _ _ | .cannotSubtract _ _ | .conditionNotBoolean
  | .notAFunction _ | .notAnObject _ | .cannotConvertText _ _ | .cannotConvertNumber _ _
  | .intArgument | .floatArgument | .strArgument | .corruptedArray | .emptyArray | .arrayExpected _
  | .atArguments | .numberRequired _ | .numbersRequired _ | .divArguments | .pathNotText _
  | .commandNotText | .callTooShort | .libraryNotText | .symbolNotText | .callArgumentNotText
  | .setReceiver | .setKeyNotText | .setMethod _ | .stringifyArgument | .parseArgument
  | .jsonScalar | .cannotEncode _ | .timeArgument _ => .kind

/-- The text of an error. -/
def Cause.message : Cause → String
  | .unexpectedText text => s!"Unexpected token: {Text.quoted text}"
  | .literalTooLarge digits => s!"Invalid integer: {digits}"
  | .commentRunsOn | .unterminatedComment => "Unterminated block comment"
  | .expected what got => s!"Expected {what.message}, got {got}"
  | .expectedExpression got => s!"Unexpected {got}, expected an expression"
  | .strayBrace => "Unexpected '\x7d' without an open body"
  | .returnOutsideFunction => "'return' is only allowed inside a function body"
  | .bodyNotClosed line => "Expected '\x7d' to close the body opened on line " ++ toString line
  | .reservedName name => s!"Cannot use reserved keyword '{name}' as a variable name"
  | .notFound what name => s!"{what} {name} not found"
  | .wrongArity function wanted given =>
    let noun := if wanted = 1 then "argument" else "arguments"
    s!"{function} takes {wanted} {noun}, got {given}"
  | .unknownValue shown => s!"Unknown value {shown}"
  | .sumOverflow | .resultOverflow => "Integer overflow"
  | .cannotAdd left right => s!"Cannot add {left} and {right}"
  | .cannotSubtract right left => s!"Cannot subtract {right} from {left}"
  | .conditionNotBoolean => "If condition must evaluate to a boolean"
  | .notAFunction name => s!"{name} is not a function"
  | .notAnObject shown => s!"{shown} is not an object"
  | .unknownNode => "Cannot evaluate object"
  | .recursionTooDeep => "maximum recursion depth exceeded"
  | .packageNotFound name => s!"Package {name} not found"
  | .sourceUnreadable error => error.message
  | .sourceUndecodable path defect => s!"{path}: {defect.message}"
  | .inFile cause path line =>
    let place := if line = 0 then path else s!"{path}, line {line}"
    s!"{cause.message} (in {place})"
  | .cannotConvertText text target => s!"Cannot convert \"{text}\" to {target}"
  | .cannotConvertNumber shown target => s!"Cannot convert {shown} to {target}"
  | .intArgument => "int() requires a string or boolean"
  | .floatArgument => "float() requires a string, boolean or number"
  | .strArgument => "str() requires a string, number or boolean"
  | .inputDisabled => "input() is disabled on the server"
  | .exitDisabled => "exit() is disabled on the server"
  | .corruptedArray => "corrupted array"
  | .emptyArray => "empty array"
  | .arrayExpected function => s!"{function}() expects an array"
  | .atArguments => "at() expects an array and a number"
  | .noElement => "no such element at that index"
  | .numberRequired function => s!"{function}() requires a number"
  | .numbersRequired function => s!"{function}() requires at least one number"
  | .divArguments => "div requires 2 numbers"
  | .divisionByZero => "cannot divide by zero"
  | .powerUndefined defect => s!"pow() failed: {defect.message}"
  | .rootOfNegative => "sqrt() of a negative number"
  | .notFinite function => s!"{function}() of a non-finite number"
  | .pathNotText function => s!"file.{function} path must be a string"
  | .fileRefused error => error.message
  | .commandNotText => "os.exec argument must be a string"
  | .commandTooLong => "Command execution failed: [Errno 7] Argument list too long: 'sh'"
  | .commandFailed status report =>
    if report.isEmpty then s!"Command exited with status {status}" else report
  | .callTooShort => "ffi.call requires at least 2 arguments"
  | .libraryNotText => "ffi.call first argument must be a string"
  | .symbolNotText => "ffi.call second argument must be a string"
  | .callArgumentNotText => "ffi.call arguments must be strings"
  | .libraryUnusable path defect => s!"Failed to load library: {path}: {defect.message}"
  | .symbolNotFound name => s!"Failed to load function: {name}"
  | .setReceiver => "json.set must be called on an object"
  | .setKeyNotText => "json.set key must be a string"
  | .setMethod key => s!"json.set cannot overwrite the {key} method"
  | .stringifyArgument => "json.stringify argument must be an object"
  | .parseArgument => "json.parse argument must be a string"
  | .invalidJson defect line column =>
    s!"Invalid JSON: {defect.message} at line {line} column {column}"
  | .jsonScalar => "json.parse expects an object or an array"
  | .cannotEncode shown => s!"Cannot encode {shown} as JSON"
  | .timeArgument function => s!"{function}() expects a number"
  | .invalidTimestamp function defect =>
    s!"{function}() got an invalid timestamp: {defect.message}"
  | .givenUp _ => "The host cannot carry this program further."

/-- An error of the language: what went wrong, and at which line; line 0 means that no line is
known yet. -/
structure Fault where
  cause : Cause
  line : Int := 0
  deriving DecidableEq, Repr

/-- Gives a line to an error that has none. -/
def Fault.atLine (f : Fault) (line : Int) : Fault :=
  if f.line = 0 then { f with line } else f

/-- What ends the reading of a program: an error of the language or a crash. -/
inductive Failure where
  | fault (fault : Fault)
  | crash (crash : Crash)
  deriving DecidableEq, Repr

/-- How a program fails for a cause, at a line that is not known yet. -/
def Cause.failure : Cause → Failure
  | .givenUp c => .crash c
  | cause => .fault ⟨cause, 0⟩

theorem Cause.failure_cases (cause : Cause) :
    (∃ c, cause = .givenUp c) ∨ cause.failure = .fault ⟨cause, 0⟩ := by
  cases cause with
  | givenUp c => exact .inl ⟨c, rfl⟩
  | _ => exact .inr rfl

end ModuLang
