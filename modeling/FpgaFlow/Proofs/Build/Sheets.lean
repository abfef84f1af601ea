import FpgaFlow.Proofs.Build.Contents
import FpgaFlow.Proofs.Text.Lines

/-!
# The scripts of a build as sheets of words

Each of the scripts that a build writes is a sheet: lines of words with blanks between
the words.  A word is the build's own or handed on from the caller (`Word`), so that it
can be said what a script names whatever the caller's options are.

**Main statements** `projectSheet_text`, `runScriptSheet_text`, `yosysSheet_text` and
`controlSheet_text`: the sheets are the texts that are written.
-/

namespace FpgaFlow.Build

/-- A word of a script. -/
inductive Word where
  | own (s : String)
  | given (s : String)
  deriving DecidableEq, Repr

namespace Word

def text : Word → String
  | own s => s
  | given s => s

def own? : Word → Option String
  | own s => some s
  | given _ => none

@[simp] theorem text_own (s : String) : (own s).text = s := rfl

@[simp] theorem text_given (s : String) : (given s).text = s := rfl

end Word

abbrev Line := List Word

abbrev Sheet := List Line

def lineText (l : Line) : String :=
  String.intercalate " " (l.map Word.text)

def sheetText (s : Sheet) : String :=
  String.intercalate "\n" (s.map lineText)

/-- What the build itself puts on a line. -/
def ownWords (l : Line) : List String :=
  l.filterMap Word.own?

/-- A line without words of the caller. -/
def ownLine (ws : List String) : Line :=
  ws.map .own

theorem sheetText_append (ls : List Line) {rest : Sheet} (h : rest ≠ []) :
    sheetText (ls ++ rest) = ControlScript.lines (ls.map lineText) ++ sheetText rest := by
  induction ls with
  | nil => rfl
  | cons l ls ih =>
    have hne : (ls ++ rest).map lineText ≠ [] := by simp [h]
    rw [List.cons_append, sheetText, List.map_cons, String.intercalate_cons_of_ne_nil hne,
      ← sheetText, ih, ControlScript.lines, ControlScript.lines, List.map_cons, List.map_cons,
      String.join_cons]
    simp only [String.append_assoc]

/-- A sheet whose last line is empty ends with the end of a line. -/
theorem sheetText_lines (ls : List Line) :
    sheetText (ls ++ [[]]) = ControlScript.lines (ls.map lineText) := by
  rw [sheetText_append ls (List.cons_ne_nil _ _)]
  exact String.append_empty

/-! ### The sheets -/

variable (o : Options)

/-- The line of a further source in a project. -/
def sourceWords (s : SourceFile) : Line :=
  [.own s.language.name, .own "work", .given s.path.text]

/-- The list of the sources of a project. -/
def projectSheet : Sheet :=
  o.sources.map sourceWords ++ [ownLine ["verilog", "work", o.name ++ ".v"], []]

def includeWords (p : Path) : Line :=
  [.own "-vlgincdir", .given p.text]

/-- The run script of a project. -/
def runScriptSheet : Sheet :=
  [ownLine ["run"], ownLine ["-ifn", o.name ++ ".prj"], ownLine ["-top", "top"],
    [.given o.tools.xst], ownLine ["-ofn", o.name ++ ".ngc"], ownLine ["-p", o.device.id]] ++
    o.includes.map includeWords ++ [[]]

/-- The line on which the open synthesizer reads a file. -/
def readWords (language : Language) (file : Word) : Line :=
  .own ("read_" ++ language.name) :: o.includes.map (fun p => .given ("-I" ++ p.text)) ++ [file]

def readLines : Sheet :=
  (o.sources.map fun s => readWords o s.language (.given s.path.text)) ++
    [readWords o .verilog (.own (o.name ++ ".v"))]

def synthesisLines (architecture : String) : Sheet :=
  [ownLine ["hierarchy", "-check", "-top", "top"],
    ownLine ["proc;", "memory;", "opt;", "fsm;", "opt"],
    ownLine ["synth_xilinx", "-arch", architecture, "-top", "top", "-edif", o.name ++ ".edif"]]

/-- The script of the open synthesizer for an architecture. -/
def yosysSheet (architecture : String) : Sheet :=
  readLines o ++ synthesisLines o architecture

/-- The netlist that the implementation tools start from. -/
def netlistName : String :=
  o.name ++ "." ++ o.mode.netlist.name

/-- The options of the tool that reads the netlist. -/
def translateWords : Line :=
  if o.mode = .yosys then
    (if o.tools.ngdbuild = "" then [] else [.given o.tools.ngdbuild]) ++
      ownLine ["-p", o.device.id]
  else [.given o.tools.ngdbuild]

def synthesisLine : Line :=
  ownLine ["xst", "-ifn", o.name ++ ".xst"]

/-- What the tool that reads the netlist is told to read and to write. -/
def translateFiles : Line :=
  ownLine ["-uc", o.name ++ ".ucf", netlistName o, o.name ++ ".ngd"]

def translateLine : Line :=
  [.own "ngdbuild"] ++ translateWords o ++ translateFiles o

def mappingLine : Line :=
  .own "map" :: .given o.tools.map ::
    ownLine ["-o", o.name ++ "_map.ncd", o.name ++ ".ngd", o.name ++ ".pcf"]

def placementLine : Line :=
  .own "par" :: .given o.tools.par ::
    ownLine [o.name ++ "_map.ncd", o.name ++ ".ncd", o.name ++ ".pcf"]

def bitstreamLine : Line :=
  .own "bitgen" :: .given o.tools.bitgen :: ownLine [o.name ++ ".ncd", o.name ++ ".bit"]

/-- The implementation tools. -/
def toolLines : List Line :=
  [translateLine o, mappingLine o, placementLine o, bitstreamLine o]

/-- The tools of the control script. -/
def stageLines : List Line :=
  (match o.mode.netlist with
    | .ngc => [synthesisLine o]
    | .edif => []) ++ toolLines o

/-- The control script after the commands that set up the tools. -/
def controlSheet (commands : List String) : Sheet :=
  [ownLine ["#", "Autogenerated", "by", "isebuild"], ownLine ["set", "-e"]] ++
    commands.map (fun c => [.given c]) ++ [[]] ++ stageLines o ++
    [[.given (Text.replaceAll "\x7bbuild_name\x7d" o.name o.tools.commands)]]

/-! ### Their texts -/

theorem lines_append (ss ts : List String) :
    ControlScript.lines (ss ++ ts) = ControlScript.lines ss ++ ControlScript.lines ts := by
  simp [ControlScript.lines]

theorem lines_map {α : Type} {w : α → Line} {f : α → String}
    (h : ∀ a, lineText (w a) ++ "\n" = f a) (as : List α) :
    ControlScript.lines ((as.map w).map lineText) = String.join (as.map f) := by
  rw [ControlScript.lines, List.map_map, List.map_map]
  exact congrArg String.join (List.map_congr_left fun a _ => h a)

theorem lineText_sourceWords (s : SourceFile) :
    lineText (sourceWords s) ++ "\n" = XstProject.sourceLine s := by
  refine String.toList_inj.1 ?_
  simp [sourceWords, lineText, XstProject.sourceLine]

theorem lineText_includeWords (p : Path) :
    lineText (includeWords p) ++ "\n" = XstProject.includeLine p := by
  refine String.toList_inj.1 ?_
  simp [includeWords, lineText, XstProject.includeLine]

theorem projectSheet_text :
    sheetText (projectSheet o) = XstProject.sourceList (allSources o) := by
  have hlast : projectSheet o =
      (o.sources.map sourceWords ++ [ownLine ["verilog", "work", o.name ++ ".v"]]) ++ [[]] := by
    simp [projectSheet]
  -- The line of the top module is that of a source.
  have htop : lineText (ownLine ["verilog", "work", o.name ++ ".v"]) ++ "\n" =
      XstProject.sourceLine ⟨⟨o.name ++ ".v"⟩, .verilog⟩ :=
    lineText_sourceWords ⟨⟨o.name ++ ".v"⟩, .verilog⟩
  rw [hlast, sheetText_lines, List.map_append, lines_append, lines_map lineText_sourceWords,
    XstProject.sourceList, allSources, List.map_append, String.join_append, ControlScript.lines]
  exact congrArg (fun s => _ ++ String.join [s]) htop

theorem runScriptSheet_text : sheetText (runScriptSheet o) =
    XstProject.runScript o.device o.includes o.name o.tools.xst := by
  unfold XstProject.runScript
  rw [runScriptSheet, sheetText_lines, List.map_append, lines_append,
    lines_map lineText_includeWords]
  refine congrArg (fun s => s ++ String.join (o.includes.map XstProject.includeLine)) ?_
  refine String.toList_inj.1 ?_
  simp [lineText, ownLine, ControlScript.lines]

theorem lineText_cons (w : Word) (ws : Line) :
    lineText (w :: ws) = w.text ++ String.join (ws.map fun w => " " ++ w.text) := by
  rw [lineText, List.map_cons, Text.intercalate_cons, List.map_map]
  rfl

theorem lineText_readWords (s : SourceFile) {file : Word} (h : file.text = s.path.text) :
    lineText (readWords o s.language file) ++ "\n" = YosysScript.readLine o.includes s := by
  have hflag (p : Path) : " " ++ ("-I" ++ p.text) = " -I" ++ p.text := by
    refine String.toList_inj.1 ?_
    simp
  rw [readWords, List.cons_append, lineText_cons, YosysScript.readLine, YosysScript.includeFlags,
    List.map_append, String.join_append, List.map_map]
  simp [Function.comp_def, hflag, h, String.append_assoc]

theorem synthesisLines_text (architecture : String) : sheetText (synthesisLines o architecture) =
    YosysScript.synthesis architecture o.name := by
  unfold YosysScript.synthesis
  refine String.toList_inj.1 ?_
  simp [synthesisLines, sheetText, lineText, ownLine]

theorem yosysSheet_text {architecture : String} (h : o.device.architecture = .ok architecture) :
    yosysText o = .ok (sheetText (yosysSheet o architecture)) := by
  have htop : lineText (readWords o .verilog (.own (o.name ++ ".v"))) ++ "\n" =
      YosysScript.readLine o.includes ⟨⟨o.name ++ ".v"⟩, .verilog⟩ :=
    lineText_readWords o ⟨⟨o.name ++ ".v"⟩, .verilog⟩ rfl
  have hread : ControlScript.lines ((readLines o).map lineText) =
      String.join ((allSources o).map (YosysScript.readLine o.includes)) := by
    rw [readLines, List.map_append, lines_append, lines_map fun s => lineText_readWords o s rfl,
      allSources, List.map_append, String.join_append, ControlScript.lines]
    exact congrArg (fun s => _ ++ String.join [s]) htop
  have hne : synthesisLines o architecture ≠ [] := List.cons_ne_nil _ _
  rw [yosysSheet, sheetText_append _ hne, hread, synthesisLines_text, yosysText,
    YosysScript.render, h]
  rfl

theorem lineText_append {l r : Line} (hl : l ≠ []) (hr : r ≠ []) :
    lineText (l ++ r) = lineText l ++ " " ++ lineText r := by
  rw [lineText, List.map_append, String.intercalate_append_of_ne_nil (by simpa using hl)
    (by simpa using hr)]
  rfl

theorem translateWords_ne_nil : translateWords o ≠ [] := by
  rw [translateWords]
  split <;> simp [ownLine]

theorem lineText_translateWords : lineText (translateWords o) = o.scriptTools.ngdbuild := by
  rw [translateWords, Options.scriptTools]
  split
  next =>
    refine String.toList_inj.1 ?_
    split <;> simp [lineText, ownLine]
  next => rfl

theorem netlistName_eq : netlistName o = o.name ++ "." ++ o.mode.netlist.name := rfl

theorem translate_text : lineText (translateLine o) =
    ControlScript.translate o.name o.mode.netlist o.scriptTools.ngdbuild := by
  have hfiles : translateFiles o ≠ [] := List.cons_ne_nil _ _
  rw [translateLine, lineText_append (List.append_ne_nil_of_left_ne_nil (List.cons_ne_nil _ _) _)
    hfiles, lineText_append (List.cons_ne_nil _ _) (translateWords_ne_nil o),
    lineText_translateWords]
  unfold ControlScript.translate
  refine String.toList_inj.1 ?_
  simp [lineText, ownLine, translateFiles, netlistName_eq]

theorem mapping_text : lineText (mappingLine o) = ControlScript.mapping o.name o.tools.map := by
  refine String.toList_inj.1 ?_
  simp [lineText, ownLine, mappingLine, ControlScript.mapping]

theorem placement_text :
    lineText (placementLine o) = ControlScript.placement o.name o.tools.par := by
  refine String.toList_inj.1 ?_
  simp [lineText, ownLine, placementLine, ControlScript.placement]

theorem bitstream_text :
    lineText (bitstreamLine o) = ControlScript.bitstream o.name o.tools.bitgen := by
  refine String.toList_inj.1 ?_
  simp [lineText, ownLine, bitstreamLine, ControlScript.bitstream,
    ControlScript.bitstreamExtension]

/-- Only the options of the tool that reads the netlist depend on the mode. -/
theorem scriptTools_eq : o.scriptTools = { o.tools with ngdbuild := o.scriptTools.ngdbuild } := by
  rw [Options.scriptTools]
  split <;> rfl

theorem stageLines_text : (stageLines o).map lineText =
    ControlScript.toolStages o.name o.mode.netlist o.scriptTools := by
  have htools : (toolLines o).map lineText =
      [ControlScript.translate o.name o.mode.netlist o.scriptTools.ngdbuild,
        ControlScript.mapping o.name o.scriptTools.map,
        ControlScript.placement o.name o.scriptTools.par,
        ControlScript.bitstream o.name o.scriptTools.bitgen] := by
    rw [scriptTools_eq]
    simp only [toolLines, List.map_cons, List.map_nil, translate_text, mapping_text,
      placement_text, bitstream_text]
  have hsynthesis : lineText (synthesisLine o) = ControlScript.synthesis o.name := by
    refine String.toList_inj.1 ?_
    simp [lineText, ownLine, synthesisLine, ControlScript.synthesis]
  unfold stageLines ControlScript.toolStages
  rw [List.map_append, htools]
  cases o.mode.netlist with
  | ngc => rw [← hsynthesis]; rfl
  | edif => rfl

theorem controlSheet_text (commands : List String) :
    sheetText (controlSheet o commands) = scriptText o commands := by
  have hheader : ControlScript.lines ([ownLine ["#", "Autogenerated", "by", "isebuild"],
      ownLine ["set", "-e"]].map lineText) = ControlScript.header := by
    refine String.toList_inj.1 ?_
    simp [ControlScript.lines, ControlScript.header, lineText, ownLine]
  have hcommands : (commands.map fun c => [Word.given c]).map lineText = commands := by
    rw [List.map_map]
    exact List.map_id _
  have htrailer : sheetText [[.given (Text.replaceAll "\x7bbuild_name\x7d" o.name
      o.tools.commands)]] =
      Text.replaceAll "\x7bbuild_name\x7d" o.name o.scriptTools.commands := by
    rw [scriptTools_eq]
    rfl
  rw [controlSheet, sheetText_append _ (List.cons_ne_nil _ _), htrailer, scriptText,
    ControlScript.assemble, ControlScript.render]
  simp only [List.map_append, lines_append, hheader, stageLines_text, hcommands]
  rfl

end FpgaFlow.Build
