import Bindery.Text.Split

/-!
# Command lines

A command line names a command and its directory, with options anywhere. An option is long or
short; its value follows it, after an equals sign or as the next word, or directly after a short
option. Short options without values can share a dash. After two dashes all is words. Options that
hold for every command stand before or after its name, and count where they stand deeper.
-/

namespace Bindery.Cli

/-- What an option sets. -/
inductive Setting where
  | config
  | name
  | verbose
  | output
  | store
  | legacy
  | worker
  | workerArgument
  | root
  | help
  | version
  deriving DecidableEq, Repr

structure Switch where
  long : String
  short : Option Char
  setting : Setting
  valued : Bool

def commonSwitches : List Switch :=
  [⟨"config", some 'c', .config, true⟩, ⟨"name", some 'n', .name, true⟩,
    ⟨"verbose", some 'v', .verbose, false⟩, ⟨"help", some 'h', .help, false⟩]

/-- The options before the name of a command. -/
def topSwitches : List Switch := commonSwitches ++ [⟨"version", some 'V', .version, false⟩]

def packageSwitches : List Switch :=
  commonSwitches ++ [⟨"output", some 'o', .output, true⟩, ⟨"store", none, .store, false⟩,
    ⟨"jscoq", none, .legacy, false⟩]

def buildSwitches : List Switch :=
  commonSwitches ++ [⟨"worker", some 'w', .worker, true⟩,
    ⟨"worker-arg", none, .workerArgument, true⟩, ⟨"output", some 'o', .output, true⟩,
    ⟨"lib-root", none, .root, true⟩, ⟨"jscoq", none, .legacy, false⟩]

/-- Why a command line is not carried out. -/
inductive Ending where
  | help
  | version
  | invalid
  deriving DecidableEq, Repr

/-- What has been read: settings with their values, and words. -/
structure Found where
  settings : List (Setting × String)
  words : List String

namespace Found

def empty : Found := ⟨[], []⟩

/-- Sets what an option sets. Only the arguments of a worker can be given several times. -/
def set (f : Found) (s : Setting) (value : String) : Except Ending Found :=
  match s with
  | .help => .error .help
  | .version => .error .version
  | s =>
    if s ≠ .workerArgument ∧ f.settings.any (·.1 = s) then .error .invalid
    else .ok { f with settings := f.settings ++ [(s, value)] }

/-- Adds a word, of which there may be so many. -/
def word (limit : Nat) (f : Found) (w : String) : Except Ending Found :=
  if f.words.length < limit then .ok { f with words := f.words ++ [w] } else .error .invalid

def values (f : Found) (s : Setting) : List String := (f.settings.filter (·.1 = s)).map (·.2)

def value? (f : Found) (s : Setting) : Option String := (f.values s).getLast?

def has (f : Found) (s : Setting) : Bool := (f.value? s).isSome

end Found

/-- What a part of a command line is. -/
inductive Piece where
  | word
  | separator
  | long (name : String) (value : Option String)
  | short (letters : List Char)

def piece (s : String) : Piece :=
  match s.toList with
  | ['-', '-'] => .separator
  | '-' :: '-' :: r =>
    match r.span (· ≠ '=') with
    | (name, _ :: value) => .long (String.ofList name) (some (String.ofList value))
    | (name, []) => .long (String.ofList name) none
  | '-' :: c :: r => .short (c :: r)
  | _ => .word

/-- Reads letters after one dash; the setting that still waits for its value comes second. -/
def readLetters (known : List Switch) (f : Found) :
    List Char → Except Ending (Found × Option Setting)
  | [] => .ok (f, none)
  | c :: r =>
    match known.find? (·.short = some c) with
    | none => .error .invalid
    | some w =>
      if w.valued then
        match r with
        | [] => .ok (f, some w.setting)
        | '=' :: v => (f.set w.setting (String.ofList v)).map (·, none)
        | v => (f.set w.setting (String.ofList v)).map (·, none)
      else
        match f.set w.setting "" with
        | .ok f => readLetters known f r
        | .error e => .error e

def readLong (known : List Switch) (f : Found) (name : String) (value : Option String) :
    Except Ending (Found × Option Setting) :=
  match known.find? (·.long = name) with
  | none => .error .invalid
  | some w =>
    match w.valued, value with
    | true, none => .ok (f, some w.setting)
    | true, some v => (f.set w.setting v).map (·, none)
    | false, none => (f.set w.setting "").map (·, none)
    | false, some _ => .error .invalid

/-- Reads options and at most so many words, while a setting may wait for its value; what follows
the last word that may be read is left over if `stop` is set. -/
def read (known : List Switch) (limit : Nat) (stop : Bool) :
    Option Setting → Found → List String → Except Ending (Found × List String)
  | some _, _, [] => .error .invalid
  | none, f, [] => .ok (f, [])
  | waiting, f, s :: r =>
    match piece s, waiting with
    | .word, some setting =>
      match f.set setting s with
      | .ok f => read known limit stop none f r
      | .error e => .error e
    | .word, none =>
      if stop then .ok (f, s :: r)
      else
        match f.word limit s with
        | .ok f => read known limit stop none f r
        | .error e => .error e
    | _, some _ => .error .invalid
    | .separator, none => (r.foldlM (Found.word limit) f).map (·, [])
    | .long name value, none =>
      match readLong known f name value with
      | .ok (f, waiting) => read known limit stop waiting f r
      | .error e => .error e
    | .short letters, none =>
      match readLetters known f letters with
      | .ok (f, waiting) => read known limit stop waiting f r
      | .error e => .error e

/-! ## Commands -/

inductive Action where
  | list
  | deps
  | package (output : Option String) (store legacy : Bool)
  | build (worker : String) (arguments : List String) (output : Option String) (root : String)
    (legacy : Bool)
  deriving DecidableEq, Repr

structure Invocation where
  action : Action
  directory : String
  config : Option String
  name : Option String
  verbose : Bool
  deriving DecidableEq, Repr

def defaultRoot : String := "/lib"

/-- The options of a command, and what it does with those that are set. -/
def command? : String → Option (List Switch × (Found → Except Ending Action))
  | "ls" => some (commonSwitches, fun _ => .ok .list)
  | "deps" => some (commonSwitches, fun _ => .ok .deps)
  | "package" =>
    some (packageSwitches, fun f => .ok (.package (f.value? .output) (f.has .store) (f.has .legacy)))
  | "build" =>
    some (buildSwitches, fun f =>
      match f.value? .worker with
      | some worker =>
        .ok (.build worker (f.values .workerArgument) (f.value? .output)
          ((f.value? .root).getD defaultRoot) (f.has .legacy))
      | none => .error .invalid)
  | _ => none

/-- The names after which a command line asks for help. -/
def helpTopics : List (List String) :=
  [[], ["ls"], ["deps"], ["package"], ["build"], ["help"]]

def parse (arguments : List String) : Except Ending Invocation := do
  let (top, rest) ← read topSwitches 0 true none .empty arguments
  match rest with
  | [] => throw .invalid
  | "help" :: topic => throw (if topic ∈ helpTopics then .help else .invalid)
  | name :: rest =>
    match command? name with
    | none => throw .invalid
    | some (switches, action) =>
      let (f, _) ← read switches 1 false none .empty rest
      match f.words with
      | [directory] =>
        return {
          action := ← action f
          directory
          config := f.value? .config <|> top.value? .config
          name := f.value? .name <|> top.value? .name
          verbose := f.has .verbose || top.has .verbose }
      | _ => throw .invalid

/-- What is printed for a version. -/
def versionText : String := "coqpack 0.1.0"

end Bindery.Cli
