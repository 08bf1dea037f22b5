import ProtocolInference.Shell.Source

/-!
# Reading shell scripts

Words are read character by character, in a mode that says what encloses them; commands
are read from tokens. Some words are reserved where a command may start. Expansions hold
whole scripts, so both are read together.
-/

namespace ProtocolInference.Shell

/-- What encloses the characters that are read. -/
inductive Mode where
  /-- A word of a command. -/
  | bare
  /-- Quotation marks. -/
  | quoted
  /-- The lines of a text in the script. -/
  | document
  /-- The braces of an expansion, which is quoted or not; `inner` tells whether quotation
  marks are open inside. -/
  | braced (quoted inner : Bool)
  /-- The parentheses of an arithmetic expansion, with more inside of them. -/
  | expression (depth : Nat)
  deriving DecidableEq

namespace Mode

/-- Whether characters keep no special meaning for the splitting of words. -/
def quotes : Mode → Bool
  | .bare | .braced false _ => false
  | _ => true

/-- Whether a backslash before the character is taken away. -/
def escapes (mode : Mode) (c : Char) : Bool :=
  c == '\\' || c == backquote || c == '$' ||
    match mode with
    | .document => false
    | .braced _ _ => c == '"' || c == '\x7d'
    | _ => c == '"'

/-- What is wrong if the text ends in this mode. -/
def missing? : Mode → Option String
  | .bare | .document => none
  | .quoted | .braced true _ => some "Syntax error: Unterminated quoted string"
  | .braced false _ => some "Syntax error: Missing '\x7d'"
  | .expression _ => some "Syntax error: Missing '))'"

end Mode

/-- Which list of commands is read. -/
inductive ListKind where
  /-- The commands of one line. -/
  | line
  /-- Commands inside of others. -/
  | body
  /-- The same, if there are any. -/
  | anyBody
  deriving DecidableEq

open Reading in
mutual
/-- The parts of a word up to the end of the mode, after those that are `done`. -/
def wordParts (fuel : Nat) (mode : Mode) (done : List Part) : Reading Word :=
  match fuel with
  | 0 => fail "Syntax error: too long"
  | fuel + 1 => do
    match ← peek? with
    | none =>
      match mode.missing? with
      | none => pure done.reverse
      | some message => fail message
    | some c =>
      if mode = .bare ∧ endsWord c then return done.reverse
      let _ ← next?
      let go (p : Part) : Reading Word := wordParts fuel mode (addPart done p)
      let plain := Part.text (String.singleton c) mode.quotes
      if c = '$' then go (← dollar fuel mode.quotes)
      else if c = backquote then go (.output (← oldSubstitution fuel mode.quotes) mode.quotes)
      else if c = '\\' then
        match ← next? with
        | none => go (.text "\\" true)
        | some d =>
          if !mode.quotes || mode.escapes d then go (.text (String.singleton d) true)
          else go (.text (String.ofList ['\\', d]) true)
      else if c = '"' then
        match mode with
        | .quoted => pure done.reverse
        | .braced true inner =>
          wordParts fuel (.braced true !inner) (addPart done (.text "" true))
        | .bare | .braced false _ =>
          match ← wordParts fuel .quoted [] with
          | [.parameter "@" .value true] => go (.parameter "@" .value true)
          | parts => wordParts fuel mode (parts.foldl addPart (addPart done (.text "" true)))
        | _ => go plain
      else if c = '\'' ∧ !mode.quotes then go (.text (← literal) true)
      else
        match mode with
        | .braced _ false => if c = '\x7d' then pure done.reverse else go plain
        | .expression depth =>
          if c = '(' then wordParts fuel (.expression (depth + 1)) (addPart done plain)
          else if c = ')' then
            match depth with
            | depth + 1 => wordParts fuel (.expression depth) (addPart done plain)
            | 0 => if ← accept ')' then pure done.reverse else go plain
          else go plain
        | _ => go plain
/-- The expansion after a dollar sign. -/
def dollar (fuel : Nat) (quoted : Bool) : Reading Part :=
  match fuel with
  | 0 => fail "Syntax error: too long"
  | fuel + 1 => do
    match ← peek? with
    | none => pure (.text "$" quoted)
    | some c =>
      if ← accept '(' then
        if ← accept '(' then
          pure (.arithmetic (← wordParts fuel (.expression 0) []) quoted)
        else pure (.output (← substitution fuel) quoted)
      else if ← accept '\x7b' then braced fuel quoted
      else if isNameStart c then pure (.parameter (← span isNameChar) .value quoted)
      else if isSpecialName c then
        let _ ← next?
        pure (.parameter (String.singleton c) .value quoted)
      else pure (.text "$" quoted)
/-- The expansion of a parameter after its opening brace. -/
def braced (fuel : Nat) (quoted : Bool) : Reading Part :=
  match fuel with
  | 0 => fail "Syntax error: too long"
  | fuel + 1 => do
    let _ ← peek?
    let unknown : Reading Part := do
      let _ ← wordParts fuel (.braced quoted false) []
      pure (.parameter "" .unknown quoted)
    let name : Reading String := do
      match ← peek? with
      | some c =>
        if isNameStart c then span isNameChar
        else if c.isDigit then span Char.isDigit
        else if isSpecialName c then
          let _ ← next?
          pure (String.singleton c)
        else pure ""
      | none => pure ""
    let isLength := match (← get).rest with
      | '#' :: '\x7d' :: _ => false
      | '#' :: c :: rest => isNameChar c || (rest.head? == some '\x7d' && isSpecialName c)
      | _ => false
    if isLength then
      let _ ← accept '#'
      let n ← name
      if ← accept '\x7d' then return .parameter n .length quoted
      unknown
    else
      let n ← name
      if n.isEmpty then return ← unknown
      if ← accept '\x7d' then return .parameter n .value quoted
      match (← get).rest with
      | '%' :: _ | '#' :: _ => do
        let fromEnd := (← next?) == some '%'
        let longest ← accept (if fromEnd then '%' else '#')
        let pattern ← wordParts fuel (.braced false false) []
        pure (.parameter n (.trimmed fromEnd longest pattern) quoted)
      | _ =>
        let orEmpty ← accept ':'
        match (← get).rest.head? with
        | some c =>
          let use? : Option (Word → Use) :=
            if c = '-' then some (.fallback orEmpty)
            else if c = '=' then some (.assignment orEmpty)
            else if c = '?' then some (.demand orEmpty)
            else if c = '+' then some (.alternative orEmpty)
            else none
          match use? with
          | none => unknown
          | some use =>
            let _ ← next?
            pure (.parameter n (use (← wordParts fuel (.braced quoted false) [])) quoted)
        | none => unknown
/-- A script whose output is wanted, after its opening parenthesis. -/
def substitution (fuel : Nat) : Reading Script :=
  match fuel with
  | 0 => fail "Syntax error: too long"
  | fuel + 1 => do
    let outer ← get
    set { outer with awaited := [], unused := none }
    let body ← list fuel .anyBody
    let t ← token fuel false false
    if t.isOperator ")" then
      modify fun s => { s with awaited := outer.awaited }
      pure body
    else unexpected t (some (.operator ")"))
/-- The text of a script whose output is wanted, up to its closing mark. -/
def oldContent (fuel : Nat) (quoted : Bool) (done : List Char) : Reading (List Char) :=
  match fuel with
  | 0 => fail "Syntax error: too long"
  | fuel + 1 => do
    match ← next? with
    | none => fail "Syntax error: EOF in backquote substitution"
    | some c =>
      if c = backquote then pure done.reverse
      else if c = '\\' then
        match ← next? with
        | none => fail "Syntax error: EOF in backquote substitution"
        | some d =>
          if d = '\n' then oldContent fuel quoted done
          else if d = '\\' ∨ d = backquote ∨ d = '$' ∨ (quoted ∧ d = '"') then
            oldContent fuel quoted (d :: done)
          else oldContent fuel quoted (d :: '\\' :: done)
      else oldContent fuel quoted (c :: done)
/-- A script whose output is wanted, after its opening mark. -/
def oldSubstitution (fuel : Nat) (quoted : Bool) : Reading Script :=
  match fuel with
  | 0 => fail "Syntax error: too long"
  | fuel + 1 => do
    let content ← oldContent fuel quoted []
    within content 1 (list fuel .anyBody)
/-- The texts in the script that start at this place. -/
def readDocuments (fuel : Nat) (awaited : List Awaited) : Reading Unit :=
  match fuel, awaited with
  | _, [] => pure ()
  | 0, _ => fail "Syntax error: too long"
  | fuel + 1, a :: others => do
    let s ← get
    let (content, rest) := documentLines a (s.rest.length + 1) s.rest
    let lines := countBreaks s.rest - countBreaks rest
    let parts ← if a.expands then within content s.line (wordParts fuel .document [])
      else pure [.text (String.ofList content) true]
    modify fun s => { s with
      rest, line := s.line + lines, documents := s.documents.setIfInBounds a.number parts }
    readDocuments fuel others
/-- A token that has not been read before. -/
def freshToken (fuel : Nat) : Reading Token :=
  match fuel with
  | 0 => fail "Syntax error: too long"
  | fuel + 1 => do
    skipBlanks
    match ← operator? with
    | some t => pure t
    | none => do
      let parts ← wordParts fuel .bare []
      let c ← peek?
      let descriptor? : Option (Option Nat) := match parts with
        | [] => some none
        | [.text s false] => if s.length = 1 then s.toNat?.map some else none
        | _ => none
      match descriptor? with
      | some d =>
        if c = some '>' then pure (.arrow (d.getD 1) (← arrow))
        else if c = some '<' then pure (.arrow (d.getD 0) (← arrow))
        else pure (.word parts)
      | none => pure (.word parts)
/-- Goes on to the first token that is no line break. -/
def skipLineBreaks (fuel : Nat) (t : Token) : Reading Token :=
  match fuel with
  | 0 => fail "Syntax error: too long"
  | fuel + 1 => do
    match t with
    | .lineBreak => do
      readDocuments fuel (← modifyGet fun s => (s.awaited, { s with awaited := [] }))
      skipLineBreaks fuel (← freshToken fuel)
    | t => pure t
/-- The next token. Line breaks may be skipped, and reserved words be told from others. -/
def token (fuel : Nat) (skipsBreaks knowsWords : Bool) : Reading Token :=
  match fuel with
  | 0 => fail "Syntax error: too long"
  | fuel + 1 => do
    let t ← match ← modifyGet fun s => (s.unused, { s with unused := none }) with
      | some t => pure t
      | none => freshToken fuel
    let t ← if skipsBreaks then skipLineBreaks fuel t else pure t
    match t with
    | .word parts =>
      match plainText parts with
      | some s => pure (if knowsWords && reservedWords.contains s then .reserved s else t)
      | none => pure t
    | _ => pure t
/-- Takes the given reserved word. -/
def expectWord (fuel : Nat) (skipsBreaks : Bool) (text : String) : Reading Unit :=
  match fuel with
  | 0 => fail "Syntax error: too long"
  | fuel + 1 => do
    let t ← token fuel skipsBreaks true
    if t.isReserved text then pure () else unexpected t (some (.reserved text))
/-- Commands with separators between them. -/
def list (fuel : Nat) (kind : ListKind) : Reading Script :=
  match fuel with
  | 0 => fail "Syntax error: too long"
  | fuel + 1 => listAfter fuel kind none
/-- What follows the first commands of a list. -/
def listAfter (fuel : Nat) (kind : ListKind) (before : Option Script) : Reading Script :=
  match fuel with
  | 0 => fail "Syntax error: too long"
  | fuel + 1 => do
    let t ← token fuel (kind ≠ .line) true
    match t with
    | .lineBreak => do
      readDocuments fuel (← modifyGet fun s => (s.awaited, { s with awaited := [] }))
      pure (before.getD .nothing)
    | .finish => do
      putBack t
      pure (before.getD .nothing)
    | _ => do
      putBack t
      if t.endsList && (kind = .anyBody || (kind = .body && before.isSome)) then
        return before.getD .nothing
      let next ← andOr fuel
      let t ← token fuel false false
      let next := if t.isOperator "&" then .background next else next
      let all := match before with
        | none => next
        | some before => .sequence before next
      match t with
      | .finish => do
        putBack t
        pure all
      | .lineBreak => do
        putBack t
        listAfter fuel kind (some all)
      | _ =>
        if t.isOperator ";" || t.isOperator "&" then listAfter fuel kind (some all)
        else if kind = .line then unexpected t
        else do
          putBack t
          pure all
/-- Pipelines joined by conjunction and disjunction. -/
def andOr (fuel : Nat) : Reading Script :=
  match fuel with
  | 0 => fail "Syntax error: too long"
  | fuel + 1 => do andOrAfter fuel (← pipeline fuel false)
/-- What follows the first pipelines, which are joined from the left. -/
def andOrAfter (fuel : Nat) (before : Script) : Reading Script :=
  match fuel with
  | 0 => fail "Syntax error: too long"
  | fuel + 1 => do
    let t ← token fuel false false
    if t.isOperator "&&" then andOrAfter fuel (.conjunction before (← pipeline fuel true))
    else if t.isOperator "||" then andOrAfter fuel (.disjunction before (← pipeline fuel true))
    else do
      putBack t
      pure before
/-- Commands joined by pipes, perhaps negated. -/
def pipeline (fuel : Nat) (skipsBreaks : Bool) : Reading Script :=
  match fuel with
  | 0 => fail "Syntax error: too long"
  | fuel + 1 => do
    let t ← token fuel skipsBreaks true
    let negated := t.isReserved "!"
    unless negated do putBack t
    let parts ← pipeParts fuel false
    let body := match parts with
      | [part] => part
      | parts => .pipe parts
    pure (if negated then .negation body else body)
/-- Commands with pipes between them. -/
def pipeParts (fuel : Nat) (skipsBreaks : Bool) : Reading (List Script) :=
  match fuel with
  | 0 => fail "Syntax error: too long"
  | fuel + 1 => do
    let first ← command fuel skipsBreaks
    let t ← token fuel false false
    if t.isOperator "|" then pure (first :: (← pipeParts fuel true))
    else do
      putBack t
      pure [first]
/-- One command. -/
def command (fuel : Nat) (skipsBreaks : Bool) : Reading Script :=
  match fuel with
  | 0 => fail "Syntax error: too long"
  | fuel + 1 => do
    let t ← token fuel skipsBreaks true
    let line := (← get).line
    match t with
    | .word _ | .arrow _ _ => do
      putBack t
      simpleCommand fuel line [] [] []
    | .operator "(" => do
      let body ← list fuel .body
      let t ← token fuel false false
      if t.isOperator ")" then withRedirections fuel line (.subshell body)
      else unexpected t (some (.operator ")"))
    | .reserved "\x7b" => do
      let body ← list fuel .body
      expectWord fuel false "\x7d"
      withRedirections fuel line body
    | .reserved "if" => do
      let body ← branches fuel
      withRedirections fuel line body
    | .reserved "while" | .reserved "until" => do
      let condition ← list fuel .body
      expectWord fuel false "do"
      let body ← list fuel .body
      expectWord fuel false "done"
      withRedirections fuel line (.repetition (t.isReserved "while") condition body)
    | .reserved "for" => do
      let name ← match ← token fuel false false with
        | .word parts =>
          match plainText parts with
          | some name =>
            if isName name then pure name else fail "Syntax error: Bad for loop variable"
          | none => fail "Syntax error: Bad for loop variable"
        | _ => fail "Syntax error: Bad for loop variable"
      let t ← token fuel true true
      let words ← if t.isReserved "in" then loopWords fuel
        else do
          unless t.isOperator ";" do putBack t
          pure [[.parameter "@" .value true]]
      expectWord fuel true "do"
      let body ← list fuel .body
      expectWord fuel false "done"
      withRedirections fuel line (.each line name words body)
    | .reserved "case" => do
      match ← token fuel false false with
      | .word parts => do
        expectWord fuel true "in"
        let choices ← branchesOf fuel
        withRedirections fuel line (.choice line parts choices)
      | t => unexpected t (some (.word []))
    | t => unexpected t
/-- The words of a loop up to the end of the line. -/
def loopWords (fuel : Nat) : Reading (List Word) :=
  match fuel with
  | 0 => fail "Syntax error: too long"
  | fuel + 1 => do
    match ← token fuel false false with
    | .word parts => pure (parts :: (← loopWords fuel))
    | .lineBreak => pure []
    | t => if t.isOperator ";" then pure [] else unexpected t
/-- The branches of a conditional, after its first word. -/
def branches (fuel : Nat) : Reading Script :=
  match fuel with
  | 0 => fail "Syntax error: too long"
  | fuel + 1 => do
    let condition ← list fuel .body
    expectWord fuel false "then"
    let body ← list fuel .body
    let t ← token fuel false false
    if t.isReserved "elif" then pure (.conditional condition body (← branches fuel))
    else if t.isReserved "else" then do
      let otherwise ← list fuel .body
      expectWord fuel false "fi"
      pure (.conditional condition body otherwise)
    else if t.isReserved "fi" then pure (.conditional condition body .nothing)
    else unexpected t (some (.reserved "fi"))
/-- The branches of a choice, up to its last word. -/
def branchesOf (fuel : Nat) : Reading (List Branch) :=
  match fuel with
  | 0 => fail "Syntax error: too long"
  | fuel + 1 => do
    let t ← token fuel true true
    if t.isReserved "esac" then pure []
    else do
      let t ← if t.isOperator "(" then token fuel false false else pure t
      let patterns ← patternsAfter fuel t
      let body ← list fuel .anyBody
      let t ← token fuel true true
      if t.isReserved "esac" then pure [.mk patterns body]
      else if t.isOperator ";;" then pure (.mk patterns body :: (← branchesOf fuel))
      else unexpected t (some (.operator ";;"))
/-- The patterns of a branch, of which the first token has been read. -/
def patternsAfter (fuel : Nat) (t : Token) : Reading (List Word) :=
  match fuel with
  | 0 => fail "Syntax error: too long"
  | fuel + 1 => do
    let pattern : Word := match t with
      | .word parts => parts
      | .reserved text => [.text text false]
      | _ => []
    match t with
    | .finish => unexpected t (some (.operator ")"))
    | _ => pure ()
    let t ← token fuel false false
    if t.isOperator "|" then pure (pattern :: (← patternsAfter fuel (← token fuel false false)))
    else if t.isOperator ")" then pure [pattern]
    else unexpected t (some (.operator ")"))
/-- The target of a redirection. -/
def redirection (fuel : Nat) (descriptor : Nat) (kind : Arrow) : Reading Redirection :=
  match fuel with
  | 0 => fail "Syntax error: too long"
  | fuel + 1 => do
    match ← token fuel false false with
    | .word parts =>
      match kind with
      | .input => pure (.mk descriptor .input parts)
      | .output always => pure (.mk descriptor (.output always) parts)
      | .append => pure (.mk descriptor .append parts)
      | .duplicate => pure (.mk descriptor .duplicate parts)
      | .document dropTabs => do
        let (ending, quoted) := rawText parts
        pure (.mk descriptor (.document (← await ending dropTabs (!quoted))) [])
    | t => unexpected t
/-- The command with the redirections after it. -/
def withRedirections (fuel : Nat) (line : Nat) (body : Script) : Reading Script :=
  match fuel with
  | 0 => fail "Syntax error: too long"
  | fuel + 1 => do
    match ← redirections fuel, body with
    | [], _ => pure body
    -- A group that holds nothing but a subshell passes its redirections on to it.
    | changes, .redirected line (.subshell inner) _ =>
      pure (.redirected line (.subshell inner) changes)
    | changes, _ => pure (.redirected line body changes)
/-- The redirections at this place. -/
def redirections (fuel : Nat) : Reading (List Redirection) :=
  match fuel with
  | 0 => fail "Syntax error: too long"
  | fuel + 1 => do
    match ← token fuel false true with
    | .arrow descriptor kind => do
      let first ← redirection fuel descriptor kind
      pure (first :: (← redirections fuel))
    | t => do
      putBack t
      pure []
/-- The parts of a simple command, or of the definition of a function. -/
def simpleCommand (fuel : Nat) (line : Nat) (assignments : List (String × Word))
    (words : List Word) (changes : List Redirection) : Reading Script :=
  match fuel with
  | 0 => fail "Syntax error: too long"
  | fuel + 1 => do
    let t ← token fuel false false
    match t with
    | .word parts =>
      match if words.isEmpty then assignmentOf parts else none with
      | some a => simpleCommand fuel line (assignments ++ [a]) words changes
      | none => simpleCommand fuel line assignments (words ++ [parts]) changes
    | .arrow descriptor kind => do
      let change ← redirection fuel descriptor kind
      simpleCommand fuel line assignments words (changes ++ [change])
    | t =>
      match words with
      | [word] =>
        if t.isOperator "(" && assignments.isEmpty && changes.isEmpty then do
          let t ← token fuel false false
          unless t.isOperator ")" do return ← unexpected t (some (.operator ")"))
          match plainText word with
          | some name =>
            if isName name && !specialBuiltins.contains name then
              pure (.definition name (← command fuel true))
            else fail "Syntax error: Bad function name"
          | none => fail "Syntax error: Bad function name"
        else do
          putBack t
          pure (.simple line assignments words changes)
      | _ => do
        putBack t
        pure (.simple line assignments words changes)
end

/-- Reads the commands of one line. There are none where the text ends. -/
def Source.next (s : Source) : Except Mistake (Option Script × Source) := do
  let reading : Reading (Option Script) := do
    let script ← list (16 * (s.rest.length + 8)) .line
    match (← get).unused, script with
    | some .finish, .nothing => pure none
    | _, script => pure (some script)
  let (script, s) ← reading.run { s with unused := none }
  pure (script, s)

/-- Whether nothing is left to read. -/
def Source.atEnd (s : Source) : Bool := s.rest.isEmpty

end ProtocolInference.Shell
