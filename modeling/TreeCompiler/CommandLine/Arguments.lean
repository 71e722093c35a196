import TreeCompiler.Target

/-!
# Arguments

The words after the name of the program. Options may stand before and after input files, short ones
may be joined, and their values may be attached. After `--` every word is an input file.
-/

namespace TreeCompiler.CommandLine

inductive Verb where
  | build
  | ir
  | ast
deriving DecidableEq, Repr

def Verb.ofWord? : String → Option Verb
  | "build" => some .build
  | "ir" => some .ir
  | "ast" => some .ast
  | _ => none

inductive Command where
  | build (inputs : List String) (options : Options)
  | ir (inputs : List String) (target : Target)
  | ast (inputs : List String)
deriving DecidableEq, Repr

inductive Request where
  | run (command : Command)
  | version
  | help
  /-- The arguments make no sense. -/
  | misuse
deriving DecidableEq, Repr

/-! ## Options -/

inductive OptionName where
  | verbose
  | help
  | version
  | output
  | target
deriving DecidableEq, Repr

namespace OptionName

def ofLong? : String → Option OptionName
  | "verbose" => some .verbose
  | "help" => some .help
  | "version" => some .version
  | "output" => some .output
  | "target" => some .target
  | _ => none

def ofShort? : Char → Option OptionName
  | 'v' => some .verbose
  | 'h' => some .help
  | 'V' => some .version
  | 'o' => some .output
  | 't' => some .target
  | _ => none

/-- The options that may stand after a verb, or before it if there is none yet. -/
def allowed (verb : Option Verb) : OptionName → Bool
  | .verbose | .help => true
  | .version => verb.isNone
  | .output => verb == some .build
  | .target => verb == some .build || verb == some .ir

def takesValue : OptionName → Bool
  | .output | .target => true
  | _ => false

end OptionName

inductive Word where
  /-- `--` -/
  | separator
  /-- `--name` or `--name=value` -/
  | long (name : String) (value : Option String)
  /-- `-abc` -/
  | short (letters : List Char)
  | plain (text : String)
deriving DecidableEq, Repr

def Word.ofText (s : String) : Word :=
  match s.toList with
  | ['-', '-'] => .separator
  | '-' :: '-' :: rest =>
    let name := rest.takeWhile (· != '=')
    match rest.dropWhile (· != '=') with
    | _ :: value => .long (.ofList name) (some (.ofList value))
    | [] => .long (.ofList name) none
  | '-' :: c :: rest => .short (c :: rest)
  | _ => .plain s

/-! ## Reading -/

structure Draft where
  inputs : List String := []
  output : Option String := none
  target : Option Target := none
deriving DecidableEq, Repr

namespace Draft

def addInput (d : Draft) (path : String) : Option Draft :=
  if path = "" then none else some { d with inputs := d.inputs ++ [path] }

def addInputs (d : Draft) (paths : List String) : Option Draft :=
  paths.foldlM addInput d

def setValue (d : Draft) (name : OptionName) (value : String) : Option Draft :=
  match name with
  | .output => if d.output.isSome then none else some { d with output := some value }
  | .target =>
    if d.target.isSome then none
    else (Target.ofName? value).map fun t => { d with target := some t }
  | _ => none

def command? (d : Draft) (verb : Verb) : Option Command :=
  if d.inputs.isEmpty then none
  else
    let default : Options := {}
    let target := d.target.getD default.target
    match verb with
    | .build => some (.build d.inputs { output := d.output.getD default.output, target })
    | .ir => some (.ir d.inputs target)
    | .ast => some (.ast d.inputs)

end Draft

inductive State where
  | reading (draft : Draft)
  /-- The next word is the value of an option. -/
  | expecting (name : OptionName) (draft : Draft)
  | done (request : Request)
deriving DecidableEq, Repr

namespace State

def ofDraft? : Option Draft → State
  | some d => .reading d
  | none => .done .misuse

def option (d : Draft) : OptionName → State
  | .help => .done .help
  | .version => .done .version
  | .verbose => .reading d
  | name => .expecting name d

/-- An option with an attached value, which has to take one. -/
def optionWith (d : Draft) (name : OptionName) (value : String) : State :=
  ofDraft? (d.setValue name value)

def long (verb : Option Verb) (d : Draft) (name : String) (value : Option String) : State :=
  match (OptionName.ofLong? name).filter (OptionName.allowed verb), value with
  | some o, none => option d o
  | some o, some v => optionWith d o v
  | none, _ => .done .misuse

/-- Joined letters; what follows one that takes a value is its value, with or without `=`. -/
def short (verb : Option Verb) (d : Draft) : List Char → State
  | [] => .reading d
  | c :: rest =>
    match (OptionName.ofShort? c).filter (OptionName.allowed verb) with
    | none => .done .misuse
    | some o =>
      if o.takesValue then
        match rest with
        | [] => .expecting o d
        | '=' :: value => optionWith d o (.ofList value)
        | value => optionWith d o (.ofList value)
      else
        match option d o with
        | .reading d => short verb d rest
        | s => s

end State

namespace Request

def ofDraft (verb : Verb) (d : Option Draft) : Request :=
  match d.bind (·.command? verb) with
  | some command => .run command
  | none => .misuse

/-- Reads the words after a verb. A word that looks like an option is not the value of another. -/
def ofWords (verb : Verb) : State → List String → Request
  | .done r, _ => r
  | .reading d, [] => ofDraft verb (some d)
  | .expecting .., [] => .misuse
  | .reading d, s :: rest =>
    match Word.ofText s with
    | .separator => ofDraft verb (d.addInputs rest)
    | .long name value => ofWords verb (State.long (some verb) d name value) rest
    | .short letters => ofWords verb (State.short (some verb) d letters) rest
    | .plain text => ofWords verb (State.ofDraft? (d.addInput text)) rest
  | .expecting name d, s :: rest =>
    match Word.ofText s with
    | .plain text => ofWords verb (State.optionWith d name text) rest
    | _ => .misuse

/-- Reads all words; the first plain one is the verb. -/
def ofArgs : List String → Request
  | [] => .misuse
  | s :: rest =>
    let next : State → Request
      | .done r => r
      | .reading _ => ofArgs rest
      | .expecting .. => .misuse
    match Word.ofText s with
    | .separator => .misuse
    | .long name value => next (State.long none {} name value)
    | .short letters => next (State.short none {} letters)
    | .plain "help" =>
      match rest with
      | [] => .help
      | [word] => if word = "help" ∨ (Verb.ofWord? word).isSome then .help else .misuse
      | _ => .misuse
    | .plain text =>
      match Verb.ofWord? text with
      | some verb => ofWords verb (.reading {}) rest
      | none => .misuse

end Request

end TreeCompiler.CommandLine
