import Idl.Command.Plans

/-!
# The command line

A command line is read, the settings are loaded, the verb makes its plan, and the plan is carried
out. Whatever fails is told on standard error, and makes the exit code one.

* §1 outcomes, §2 help, §3 verbs, §4 the program.
-/

namespace Idl.Command

open Files (Disk)

/-! ## §1 Outcomes -/

/-- What a command line leads to. -/
structure Outcome where
  code : Nat
  stdout : Bytes
  stderr : Bytes
  disk : Disk

namespace Outcome

/-- The outcome of a program that stops. -/
def stop (code : Nat) (c : Console) (d : Disk) : Outcome := ⟨code, c.stdout, c.stderr, d⟩

/-- The outcome of a command line that cannot be carried out. -/
def refuse (d : Disk) (message : Bytes) : Outcome := ⟨1, [], message ++ "\n", d⟩

end Outcome

/-- Tells about a failure, unless that has been done. -/
def tellFailure (c : Console) (f : Failure) : Console :=
  if f = .reported then c else c.tell ("error: " ++ f.message ++ "\n")

/-! ## §2 Help -/

/-- A word as it is shown among help topics. -/
def quoteTopic (t : Bytes) : Bytes :=
  let mark : Bytes := [0x60]
  let isPlain (g : Glyph) : Bool := Quote.glyph g == g.octets || g.octets == "\""
  if t.contains 0x60 || !(Utf8.glyphs t).all isPlain then quote t else mark ++ t ++ mark

/-- The text of help about topics. -/
def helpText (topics : List Bytes) : Bytes :=
  match findVerb topics with
  | .ok (v, _) => Usage.help v
  | .error _ =>
    "Unknown help topic [" ++ Bytes.join " " (topics.map quoteTopic) ++ "]\n" ++ Usage.program

/-! ## §3 Verbs -/

/-- Does what a verb asks for. -/
def carryOut (r : Request) (v : Verb) (c : Console) : Outcome :=
  match (r.plan v).run c with
  | (.error f, c) => .stop 1 (tellFailure c f) r.env.disk
  | (.ok steps, c) =>
    match (takeAll steps).run ⟨c, r.env.disk⟩ with
    | (.error f, s) => .stop 1 (tellFailure s.console f) s.disk
    | (.ok (), s) => .stop 0 s.console s.disk

/-- The level of the log: from a flag, or from the settings. -/
def chooseLevel (s : Settings) (flag : Bytes) : Except SettingsError Int :=
  let name := if flag.isEmpty then s.text .logLevel else flag
  (readLevel (Text.lower name)).mapError (SettingsError.level name)

/-- The event of a configuration file that has been read. -/
def loadedEvent (path : Bytes) : Event :=
  { weight := .debug, message := "loaded config", details := [("path", .text path)] }

/-- The console of a command, with what is told about its settings. -/
def openConsole (s : Settings) (level : Int) : Console :=
  let c : Console := { level := level }
  match s.source with
  | some path => c.log (loadedEvent path)
  | none => c

/-! ## §4 The program -/

/-- The flags that count for a verb, or without one. -/
def flagsOf : Option Verb → List Flag
  | none => helpFlag programName :: sharedFlags
  | some v => helpFlag v.name :: v.flags ++ sharedFlags

/-- Carries out a command line. -/
def run (env : Environment) (words : List Bytes) (schedule : Schedule := .given) : Outcome :=
  match findVerb words with
  | .error message => .refuse env.disk message
  | .ok (verb, words) =>
    match readCommandLine (flagsOf verb) words with
    | .error e => .refuse env.disk e.message
    | .ok (flags, args) =>
      if flags.toggle "help" then ⟨0, Usage.help verb, [], env.disk⟩
      else match Settings.load env.disk env.vars (flags.text "config") with
        | .error e => .refuse env.disk e.message
        | .ok settings => match chooseLevel settings (flags.text "log-level") with
          | .error e => .refuse env.disk e.message
          | .ok level =>
            let c := openConsole settings level
            match verb with
            | none => .stop 1 (c.complain Usage.program) env.disk
            | some .help => .stop 0 (c.print (helpText args)) env.disk
            | some v => carryOut ⟨env, settings, flags, args, schedule⟩ v c

end Idl.Command
