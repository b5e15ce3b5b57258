import GoIpc.Schema.Parse

namespace GoIpc.Schema

/-!
# The names of a schema

The first part of `Check`: the package, message and field names a schema may use.

* `snake`, `camel` — the C name of a message and the Go name of a field;
* `Schema.lookup` — the message that a name refers to, by its place;
* `nameProblems` — what `names` reports.

Names are words of `lex`, so only ASCII letters are told apart here.
-/

/-! ### Spellings -/

/-- `^[A-Z][A-Za-z0-9]*$` -/
def isMessageName (name : String) : Bool :=
  match name.toList with
  | [] => false
  | c :: cs => c.isUpper && cs.all Char.isAlphanum

/-- The rest of a lower_snake name after a `_`, or after another character. -/
def snakeTail : Bool → List Char → Bool
  | after_, [] => !after_
  | after_, c :: cs =>
      if c = '_' then !after_ && snakeTail true cs
      else (c.isLower || c.isDigit) && snakeTail false cs

/-- `^[a-z][a-z0-9]*(_[a-z0-9]+)*$` -/
def isSnakeName (name : String) : Bool :=
  match name.toList with
  | [] => false
  | c :: cs => c.isLower && snakeTail false cs

/-- A `_` goes between two words; an acronym is one word. -/
def snakeFrom : Option Char → List Char → List Char
  | _, [] => []
  | prev, c :: cs =>
      let nextLower := match cs with
        | [] => false
        | d :: _ => d.isLower
      let starts := match prev with
        | none => false
        | some p => c.isUpper && (p.isLower || p.isDigit || (p.isUpper && nextLower))
      if starts then '_' :: c.toLower :: snakeFrom (some c) cs else c.toLower :: snakeFrom (some c) cs

/-- The lower_snake form of an UpperCamel name. -/
def snake (name : String) : String := String.ofList (snakeFrom none name.toList)

/-- The parts between `_`, each with its first letter upper-cased. -/
def camelFrom : Bool → List Char → List Char
  | _, [] => []
  | first, c :: cs =>
      if c = '_' then camelFrom true cs
      else (if first then c.toUpper else c) :: camelFrom false cs

/-- The UpperCamel form of a lower_snake name. -/
def camel (name : String) : String := String.ofList (camelFrom true name.toList)

/-- `strings.HasPrefix` -/
def hasPrefix (s start : String) : Bool := start.toList.isPrefixOf s.toList

/-! ### Reserved words -/

/-- Keywords and predefined names of C, C++, Go and Python, and the members of generated code. -/
def reservedWords : List String :=
  ["auto", "break", "case", "char", "const", "continue", "default", "do", "double", "else", "enum",
    "extern", "float", "for", "goto", "if", "inline", "int", "long", "register", "restrict", "return",
    "short", "signed", "sizeof", "static", "struct", "switch", "typedef", "union", "unsigned", "void",
    "volatile", "while", "alignas", "alignof", "bool", "true", "false", "static_assert", "thread_local",
    "noreturn", "complex", "imaginary", "assert", "errno", "offsetof", "linux", "unix", "i386", "and",
    "and_eq", "asm", "bitand", "bitor", "catch", "char8_t", "char16_t", "char32_t", "class", "compl",
    "concept", "consteval", "constexpr", "constinit", "const_cast", "co_await", "co_return", "co_yield",
    "decltype", "delete", "dynamic_cast", "explicit", "export", "friend", "mutable", "namespace", "new",
    "noexcept", "not", "not_eq", "nullptr", "operator", "or", "or_eq", "private", "protected", "public",
    "reinterpret_cast", "requires", "static_cast", "template", "this", "throw", "try", "typeid",
    "typename", "using", "virtual", "wchar_t", "xor", "xor_eq", "std", "chan", "defer", "fallthrough",
    "func", "go", "import", "interface", "map", "package", "range", "select", "type", "var", "as",
    "async", "await", "def", "del", "elif", "except", "finally", "from", "global", "in", "is", "lambda",
    "nonlocal", "pass", "raise", "with", "yield", "none", "self", "cls", "size", "encode", "decode",
    "type_id", "fixed_size"]

def goMethods : List String := ["Size", "MarshalTo", "MarshalBinary", "UnmarshalBinary", "TypeID"]

def pyNames : List String := ["MESSAGES"]

def goNames : List String := ["Message", "NewMessage"]

/-! ### Problems -/

/-- What `Check` finds wrong.  `stuck` is for a recursion that does not end and for a division by an
    alignment that is not set. -/
inductive CheckMsg
  /-- package name %q must be lower_snake and not a reserved word -/
  | packageName (name : String)
  /-- message name %q must be UpperCamel -/
  | messageCamel (name : String)
  /-- message name %q is reserved -/
  | messageReserved (name : String)
  /-- message %s is already declared at line %d -/
  | messageAgain (name : String) (line : Nat)
  /-- message %s and message %s both map to the C name %s -/
  | sameC (other name c : String)
  /-- type ID 0xFFFFFFFF is reserved -/
  | idReserved
  /-- type ID %d is already used by message %s -/
  | idUsed (id : Nat) (other : String)
  /-- message name %s clashes with the Go constant for message %s -/
  | constantClash (other name : String)
  /-- field name %q must be lower_snake -/
  | fieldSnake (name : String)
  /-- field name %q is reserved -/
  | fieldReserved (name : String)
  /-- field %s is already declared in message %s -/
  | fieldAgain (name message : String)
  /-- fields %s and %s both map to the Go name %s -/
  | sameGo (other name go : String)
  /-- unknown type %s -/
  | unknownType (name : String)
  /-- array length must be at least 1 -/
  | arrayEmpty
  /-- array element %s must be a scalar or a fixed message -/
  | arrayElement (type : String)
  /-- array element %s has a string or bytes field, so it cannot be an array element -/
  | elementNotFixed (name : String)
  /-- field %s: message %s has a string or bytes field, so it cannot be a field type -/
  | fieldNotFixed (field name : String)
  /-- message %s contains itself: %s -/
  | containsItself (name : String) (path : List String)
  /-- message %s: the fixed section is larger than %d bytes -/
  | tooLarge (name : String) (limit : Nat)
  | stuck
deriving DecidableEq

structure Problem where
  pos : Pos
  msg : CheckMsg
deriving DecidableEq

/-! ### Checks -/

set_option linter.dupNamespace false in
/-- `byName`: the first message with the name. -/
def Schema.lookup (s : Schema) (name : String) : Option Nat :=
  s.messages.findIdx? (fun m => m.name = name)

def packageProblems (s : Schema) : List Problem :=
  if !isSnakeName s.package || reservedWords.contains s.package || hasPrefix s.package "ipcgen" then
    [⟨s.pkgPos, .packageName s.package⟩]
  else []

/-- What is wrong with the name of `m` after the messages `before`.  Of the messages with one C name
    the last one is named. -/
def messageNameProblems (before : List Message) (m : Message) : List Problem :=
  if !isMessageName m.name then [⟨m.pos, .messageCamel m.name⟩]
  else if pyNames.contains m.name || goNames.contains m.name || hasPrefix (snake m.name) "ipcgen" then
    [⟨m.pos, .messageReserved m.name⟩]
  else
    match before.find? (fun o => o.name = m.name) with
    | some o => [⟨m.pos, .messageAgain m.name o.pos.line⟩]
    | none =>
        match before.reverse.find? (fun o => snake o.name = snake m.name) with
        | some o => [⟨m.pos, .sameC o.name m.name (snake m.name)⟩]
        | none => []

def idProblems (before : List Message) (m : Message) : List Problem :=
  if m.id = 0xFFFFFFFF then [⟨m.idPos, .idReserved⟩]
  else
    match before.find? (fun o => o.id = m.id) with
    | some o => [⟨m.idPos, .idUsed m.id o.name⟩]
    | none => []

def fieldNameProblems (m : Message) (before : List Field) (f : Field) : List Problem :=
  if !isSnakeName f.name then [⟨f.pos, .fieldSnake f.name⟩]
  else if reservedWords.contains f.name || hasPrefix f.name "ipcgen" || goMethods.contains (camel f.name)
  then [⟨f.pos, .fieldReserved f.name⟩]
  else if before.any (fun o => o.name = f.name) then [⟨f.pos, .fieldAgain f.name m.name⟩]
  else
    match before.reverse.find? (fun o => camel o.name = camel f.name) with
    | some o => [⟨f.pos, .sameGo o.name f.name (camel f.name)⟩]
    | none => []

/-- The problems of every element of a list, each seen after the ones before it. -/
def problemsFrom {α : Type} (check : List α → α → List Problem) : List α → List α → List Problem
  | _, [] => []
  | before, x :: xs => check before x ++ problemsFrom check (before ++ [x]) xs

/-- `names` -/
def nameProblems (s : Schema) : List Problem :=
  packageProblems s ++
  problemsFrom (fun before m => messageNameProblems before m ++ idProblems before m ++
    problemsFrom (fieldNameProblems m) [] m.fields) [] s.messages ++
  s.messages.flatMap (fun m =>
    match s.messages.find? (fun o => o.name = m.name ++ "Type") with
    | some o => [⟨o.pos, .constantClash o.name m.name⟩]
    | none => [])

end GoIpc.Schema
