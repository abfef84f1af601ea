import FpgaFlow.Build.Options
import FpgaFlow.Build.Synthesis
import FpgaFlow.ControlScript
import FpgaFlow.Ucf

/-!
# Running a build

A build enters its directory and goes through its states: it asks the design for the text that its
mode needs and writes it, writes the project of the synthesizer, the constraints, and, if the tools
are to be run, the control script, which it then runs. It stops at the first failure. What was
written before stays, and the working directory is again the one that it was before.

`Build.stages` is what happens inside the directory; `Build.run` is the whole build.
-/

namespace FpgaFlow.Build

/-- What a build asked of its design and of a synthesizer that is part of the caller. -/
inductive Question where
  | verilog (table : LoweringTable)
  | netlist (target : NetlistTarget)
  | synthesis (signals : List String)

/-- How far a build is. -/
structure Progress where
  host : Host
  states : List BuildState
  /-- The names of the files that were written. -/
  files : List String
  asked : List Question

/-- A part of a build. -/
abbrev Stage := ExceptT Failure (StateM Progress)

namespace Stage

/-- Something done on the host. -/
def act {α : Type} (a : Action α) : Stage α :=
  ExceptT.mk fun p =>
    let (r, host) := ExceptT.run a p.host
    (r, { p with host := host })

/-- Goes on to a state. -/
def enter (s : BuildState) : Stage Unit :=
  ExceptT.mk fun p => (.ok (), { p with states := p.states ++ [s] })

/-- Notes files that were written. -/
def note (files : List String) : Stage Unit :=
  ExceptT.mk fun p => (.ok (), { p with files := p.files ++ files })

/-- Notes a question. -/
def ask (q : Question) : Stage Unit :=
  ExceptT.mk fun p => (.ok (), { p with asked := p.asked ++ [q] })

/-- Writes a file of the build. -/
def writeFile (directory : Path) (file text : String) : Stage Unit := do
  act (Action.writeText (directory.child file) text)
  note [file]

end Stage

open Stage

/-- Asks for the Verilog text of the design, writes it, and hands it with the further sources to the
synthesizer. -/
def generateVerilog (g : Generator) (o : Options) (e : Equipment) : Stage Generated := do
  ask (.verilog e.lowering)
  let generated ← act (Action.look fun h => g.verilog e.lowering h.toView)
  let top := o.name ++ ".v"
  writeFile o.directory top generated.text
  let sources := o.sources ++ [⟨⟨top⟩, .verilog⟩]
  enter .generateProject
  if o.mode = .xst then
    note (← act (Action.writeXstProject o.directory o.device sources o.includes o.name o.tools.xst))
  else
    note [← act (Action.runYosys e.tools o.directory o.device sources o.includes o.name)]
  return generated

/-- Has the specialized synthesizer make the netlist. -/
def synthesize (g : Generator) (e : Equipment) : Stage Unit :=
  match e.synthesizer with
  | none => pure ()
  | some s => do
    match s with
    | .hosted _ => ask (.synthesis g.ioSignals)
    | .program .. => pure ()
    act (Action.runSynthesizer e.tools g.ioSignals s)

/-- Asks for the netlist of the design and writes it. -/
def generateNetlist (g : Generator) (o : Options) (e : Equipment) : Stage Generated := do
  if o.mode = .mist then synthesize g e
  let target := NetlistTarget.xilinx o.device
  ask (.netlist target)
  let generated ← act (Action.look fun h => g.netlist target h.toView)
  writeFile o.directory (o.name ++ ".edif") generated.text
  return generated

/-- Generates the design in the way of the mode. -/
def generate (g : Generator) (o : Options) (e : Equipment) : Stage Generated :=
  if o.mode.usesVerilog then generateVerilog g o e else generateNetlist g o e

/-- Writes the control script and runs it. Gives the path of the bitstream. -/
def runTools (o : Options) (e : Equipment) : Stage Path := do
  let commands ← act (Action.look fun h =>
    (h.environmentCommands o.installRoot o.source).mapError fun f => Failure.of (.fault f))
  let script := ControlScript.assemble o.name commands o.mode.netlist o.scriptTools
  let file := ControlScript.fileName o.name
  writeFile o.directory file script.render
  act (Action.runSuccessfully e.tools .script ⟨"bash"⟩ [file])
  return o.directory.child (o.name ++ ControlScript.bitstreamExtension)

/-- What a build does inside its directory. Gives the path of the bitstream if the tools ran. -/
def stages (g : Generator) (o : Options) (e : Equipment) : Stage (Option Path) := do
  enter .selectMode
  enter .generateDesign
  let generated ← generate g o e
  enter .writeConstraints
  writeFile o.directory (o.name ++ ".ucf") (Ucf.render generated.signals generated.commands)
  if o.run then
    enter .runScript
    return some (← runTools o e)
  else return none

/-- Goes into the directory of the build, which is made if it is missing. -/
def enterDirectory (o : Options) : Stage Unit := do
  enter .changeDirectory
  act (Action.ensureDirectory o.directory)
  act (Action.enter o.directory)

/-- The report of a build that came to its end. -/
def report (o : Options) (p : Progress) (bitstream : Option Path) : Report where
  mode := o.mode
  netlist := o.mode.netlist
  directory := o.directory
  files := p.files
  ranTools := bitstream.isSome
  bitstream := bitstream
  states := p.states ++ [.done]

/-- The failure of a build, with the way to it. -/
def failure (p : Progress) (f : Failure) : Failure :=
  f.within (.building (p.states.getLast?.getD .changeDirectory) (p.states ++ [.failed]))

/-- A build before anything has been done. -/
def Progress.start (h : Host) : Progress where
  host := h
  states := []
  files := []
  asked := []

/-- The end of a build: the working directory is the one that it was before. -/
def Progress.leave (p : Progress) (previous : Location) : Progress :=
  { p with host := p.host.returnTo previous }

/-- What a build checks before it does anything: there has to be the synthesizer that its mode
needs, and its working directory, which this gives. -/
def prepare (options : Options) (e : Equipment) (h : Host) : Except Failure Path :=
  if options.mode = .mist ∧ e.synthesizer.isNone then .error (Failure.of .noSynthesizer)
  else Action.inContext .locating h.currentDirectory

/-- Builds a design. Relative paths are read below the working directory, also while the build is
in its own. -/
def run (g : Generator) (options : Options) (e : Equipment) (h : Host) :
    Except Failure Report × Progress :=
  match prepare options e h with
  | .error f => (.error f, Progress.start h)
  | .ok workingDirectory =>
    let o := options.absolutize workingDirectory
    match (enterDirectory o).run (Progress.start h) with
    | (.error f, p) => (.error f, p)
    | (.ok (), p) =>
      let (r, p) := (stages g o e).run p
      let left := p.leave h.directory
      match r with
      | .error f => (.error (failure p f), left)
      | .ok bitstream => (.ok (report o p bitstream), left)

end FpgaFlow.Build
