import ModuLang.Interpreter
import ModuLang.Report

/-!
# The server

A program that is sent to the server is run for someone who may not touch the host, in a machine of
its own. The answer is what it printed, followed by the report of its error if there is one.
-/

namespace ModuLang.Server

open Host

variable [Limits]

/-- What a submitted program printed; it may leave traces in the world. A crash gives no answer. -/
def evaluateRequest (w : World) (code : String) : Except Interrupt String × World :=
  let config : Config := { onServer := true }
  let session := Session.new config { w with output := "" }
  let (result, session) := session.eval code
  let after := { session.machine.world with output := w.output }
  let printed := session.machine.world.output
  match result with
  | .ok () => (.ok printed, after)
  | .error (.failed (.fault f)) => (.ok (printed ++ "\n" ++ f.report "<stdin>" none ++ "\n"), after)
  | .error i => (.error i, after)

/-- The requests that the server knows. -/
inductive Method where
  | get
  | post
  | options
  deriving DecidableEq, Repr

/-- A request: its method, its path, its declared length and its body. -/
structure Request where
  method : Method
  path : String
  contentLength : Option String := none
  body : List UInt8 := []

/-- An answer: its status, its headers in order, and its body. -/
structure Response where
  status : Nat
  headers : List (String × String)
  body : String

/-- The headers that let pages of other hosts use the server. -/
def sharingHeaders : List (String × String) :=
  [("Access-Control-Allow-Origin", "*"), ("Access-Control-Allow-Methods", "GET, POST, OPTIONS"),
    ("Access-Control-Allow-Headers", "Content-Type")]

/-- An answer with all its headers. -/
def respond (status : Nat) (body : String) (hasType : Bool) : Response where
  status := status
  headers :=
    (if hasType then [("Content-Type", "text/plain; charset=utf-8")] else []) ++ sharingHeaders ++
      [("Content-Length", toString body.utf8ByteSize)]
  body := body

/-- The answer where there is nothing. -/
def notFound : Response :=
  respond 404 "Not Found" true

/-- The answer that shows that the server is there. -/
def liveness : Response :=
  respond 200 "Modu interpreter server is running" true

/-- A text as a request carries it: each of its octets is a character. -/
def carried (s : String) : List Char :=
  (Text.encodeUtf8 s).map fun b => Char.ofNat b.toNat

/-- What a header says up to the end of its line. A line that begins with a blank continues the one
before. -/
def headerLine : List Char → List Char
  | [] => []
  | c :: rest =>
    let isContinued := rest.head? == some ' ' || rest.head? == some '\t'
    if c == '\r' && rest.head? == some '\n' then
      let continued := headerLine rest
      if continued.isEmpty then [] else c :: continued
    else if (c == '\r' || c == '\n') && !isContinued then []
    else c :: headerLine rest

/-- The text of a header, without the blanks in front of it. -/
def headerText (raw : String) : String :=
  String.ofList ((headerLine (carried raw)).dropWhile fun c => c == ' ' || c == '\t')

/-- The part of the body that the declared length covers; a negative length covers all. The length
has to lie within 64 bits. -/
def coveredBody (r : Request) : Except Crash (List UInt8) := do
  let declared := headerText (r.contentLength.getD "")
  let length ← if declared.isEmpty then pure 0 else readSetting declared
  if !Number.inRange length then throw .integerTooLarge
  return if length < 0 then r.body else r.body.take length.toNat

/-- The words of a text: what stands between blanks. -/
def wordsOf (cs : List Char) : List (List Char) :=
  (Text.splitAt ' ' (cs.map fun c => if Text.isBlank c then ' ' else c)).filter (!·.isEmpty)

/-- The path that a request asks for, if it is one word: several slashes in front count as one. -/
def Request.target? (r : Request) : Option String :=
  match wordsOf (carried r.path) with
  | ['/' :: '/' :: rest] => some (String.ofList ('/' :: rest.dropWhile (· == '/')))
  | [word] => some (String.ofList word)
  | _ => none

/-- The name of a method. -/
def Method.name : Method → String
  | .get => "GET"
  | .post => "POST"
  | .options => "OPTIONS"

/-- The first line of a request. -/
def Request.firstLine (r : Request) : String :=
  String.ofList (carried s!"{r.method.name} {r.path} HTTP/1.1")

/-- A text inside a page. -/
def pageText (s : String) : String :=
  ((s.replace "&" "&amp;").replace "<" "&lt;").replace ">" "&gt;"

/-- The page that tells of an error. -/
def errorPage (status : Nat) (message explanation : String) : String :=
  "\n".intercalate
    ["<!DOCTYPE HTML>", "<html lang=\"en\">", "    <head>", "        <meta charset=\"utf-8\">",
      "        <title>Error response</title>", "    </head>", "    <body>",
      "        <h1>Error response</h1>", s!"        <p>Error code: {status}</p>",
      s!"        <p>Message: {pageText message}.</p>",
      s!"        <p>Error code explanation: {status} - {pageText explanation}.</p>", "    </body>",
      "</html>", ""]

/-- The answer to a request whose first line cannot be read. -/
def malformed (r : Request) : Response :=
  let page := errorPage 400 s!"Bad request syntax ({Text.quoted r.firstLine})"
    "Bad request syntax or unsupported method"
  { status := 400
    headers := [("Connection", "close"), ("Content-Type", "text/html;charset=utf-8"),
      ("Content-Length", toString page.utf8ByteSize)]
    body := page }

/-- Answers a request. -/
def handle (w : World) (r : Request) : Except Interrupt Response :=
  match r.target?, r.method with
  | none, _ => .ok (malformed r)
  | some path, .get => .ok (if path = "/" then liveness else notFound)
  | some path, .options => .ok (if path = "/eval" then respond 200 "" false else notFound)
  | some path, .post =>
    if path = "/eval" then
      match coveredBody r with
      | .error c => .error (.failed (.crash c))
      | .ok bytes =>
        (evaluateRequest w (Text.decodeUtf8Lenient bytes)).1.map fun text => respond 200 text true
    else .ok notFound

end ModuLang.Server
