import FpgaFlow.Proofs.Build.SourceLists
import FpgaFlow.Proofs.Host.NewestVersion
import FpgaFlow.Proofs.Path.Components
import FpgaFlow.Proofs.Words.Shell
import FpgaFlow.Proofs.Words.Yosys

/-!
# Paths and names as words of commands

The commands of the control script and of the script for the open synthesizer are written word for
word with one blank between the words, and nothing in them is quoted.  So a path or a name reaches
a tool as one word if and only if nothing in it means anything to the program that splits the
command (`Shell.words_line_iff`, `Yosys.words_line_iff`).

**Main statement** (`words_reach_tools_iff`): the shell is told to source the settings script if and
only if the directory of the installations is plain, a tool is given its files if and only if the
name of the build is, and the open synthesizer reads a source with its directories of included
files if and only if there are no blanks in their paths and that of the source is not in quotes.
-/

namespace FpgaFlow

/-! ### The commands that set up the tools -/

/-- A path below another one is plain if that one is. -/
theorem Path.plain_child_iff {p : Path} {name : String} (hslash : '/' ∉ name.toList)
    (hname : Shell.Plain name) : Shell.Plain (p.child name).text ↔ Shell.Plain p.text := by
  rw [child, join, if_neg (by simp [isAbsolute_of_slash_notMem hslash])]
  split
  next hp =>
    rw [hp]
    exact iff_of_true hname (by decide)
  next =>
    split
    · rw [Shell.plain_append_iff, and_iff_left hname]
    · rw [Shell.plain_append_iff, Shell.plain_append_iff, and_iff_left hname,
        and_iff_left (by decide)]

theorem Path.text_child_ne_empty (p : Path) {name : String} (hname : name ≠ "") :
    (p.child name).text ≠ "" := by
  rw [child, join]
  split
  next => exact hname
  next =>
    split
    next => exact hname
    next => split <;> simp [hname]

namespace View

variable {v : View} {root : Path} {version : Version}

/-- A version is written with digits and a point. -/
theorem plain_of_newestVersion (h : v.newestVersion root = .ok version) :
    '/' ∉ version.text.toList ∧ Shell.Plain version.text := by
  have hmem : version ∈ v.installedVersions root :=
    Version.mem_of_newest? (newestVersion_eq_ok_iff.1 h)
  have hchars : ∀ c ∈ version.text.toList, c.isDigit = true ∨ c = '.' :=
    (mem_installedVersions.1 hmem).1.decimal.chars
  constructor
  · intro hslash
    rcases hchars '/' hslash with h | h <;> exact absurd h (by decide)
  · intro c hc
    rcases hchars c hc with hdigit | rfl
    · exact Shell.plainChar_of_isDigit hdigit
    · decide

theorem plain_settingsPath_iff (h : v.newestVersion root = .ok version) {bits : Nat}
    (hslash : '/' ∉ (settingsName bits).toList) (hbits : Shell.Plain (settingsName bits)) :
    Shell.Plain (settingsPath root version.text bits).text ↔ Shell.Plain root.text := by
  obtain ⟨hversion, hplain⟩ := plain_of_newestVersion h
  rw [settingsPath, Path.plain_child_iff hslash hbits,
    Path.plain_child_iff (by decide) (by decide), Path.plain_child_iff hversion hplain]

theorem plain_settingsScript_iff (h : v.newestVersion root = .ok version) :
    Shell.Plain (v.settingsScript root version hostBits).text ↔ Shell.Plain root.text := by
  rcases v.settingsScript_cases root version with hscript | hscript
  · rw [hscript, plain_settingsPath_iff h (by decide) (by decide)]
  · rw [hscript, plain_settingsPath_iff h (by decide) (by decide)]

/-- The settings script is one word behind its command if the root of the installations is plain,
and otherwise not. -/
theorem words_source_iff (h : v.newestVersion root = .ok version) :
    Shell.words ("source " ++ (v.settingsScript root version hostBits).text) =
      ["source", (v.settingsScript root version hostBits).text] ↔ Shell.Plain root.text := by
  have hne : (v.settingsScript root version hostBits).text ≠ "" := by
    rcases v.settingsScript_cases root version with hscript | hscript
    · rw [hscript]
      exact Path.text_child_ne_empty _ (by decide)
    · rw [hscript]
      exact Path.text_child_ne_empty _ (by decide)
  rw [← plain_settingsScript_iff h]
  generalize (v.settingsScript root version hostBits).text = script at hne ⊢
  have hline : "source " ++ script = String.intercalate " " ["source", script] := by
    refine String.toList_inj.1 ?_
    simp
  have hsource : "source" ≠ "" ∧ Shell.Plain "source" := by decide
  rw [hline, Shell.words_line_iff, List.forall_mem_cons, and_iff_right hsource,
    List.forall_mem_singleton, and_iff_right hne]

end View

/-! ### The stages of the control script -/

/-- All quotes in the options of the tools are closed. -/
structure ToolOptions.Closed (o : ToolOptions) : Prop where
  ngdbuild : Shell.Closed o.ngdbuild
  map : Shell.Closed o.map
  par : Shell.Closed o.par
  bitgen : Shell.Closed o.bitgen

/-- A command that ends with the names of files, which are the name of the build with endings. -/
structure StageLine where
  front : String
  endings : List String

namespace StageLine

variable (l : StageLine) (name : String)

def files : List String :=
  l.endings.map fun ending => name ++ ending

def text : String :=
  l.front ++ " " ++ String.intercalate " " (l.files name)

/-- Only the name of the build can keep the files from being one word each. -/
structure Clean : Prop where
  closed : Shell.Closed l.front
  endings_ne_nil : l.endings ≠ []
  plain : ∀ e ∈ l.endings, e ≠ "" ∧ Shell.Plain e

variable {l name}

/-- The files are one word each if the name of the build is plain, and otherwise not. -/
theorem Clean.words_iff (h : l.Clean) :
    Shell.words (l.text name) = Shell.words l.front ++ l.files name ↔ Shell.Plain name := by
  rw [text, Shell.words_append_line_iff h.closed, files, List.forall_mem_map]
  constructor
  · intro hfiles
    obtain ⟨e, he⟩ := List.exists_mem_of_ne_nil _ h.endings_ne_nil
    exact (Shell.plain_append_iff.1 (hfiles e he).2).1
  · intro hname e he
    obtain ⟨hne, hplain⟩ := h.plain e he
    exact ⟨by simp [hne], Shell.plain_append_iff.2 ⟨hname, hplain⟩⟩

end StageLine

namespace ControlScript

def synthesisLine : StageLine :=
  ⟨"xst -ifn", [".xst"]⟩

def translateLine (netlist : Netlist) (options : String) : StageLine :=
  ⟨"ngdbuild " ++ options ++ " " ++ "-uc", [".ucf", "." ++ netlist.name, ".ngd"]⟩

def mappingLine (options : String) : StageLine :=
  ⟨"map " ++ options ++ " " ++ "-o", ["_map.ncd", ".ngd", ".pcf"]⟩

def placementLine (options : String) : StageLine :=
  ⟨"par " ++ options, ["_map.ncd", ".ncd", ".pcf"]⟩

def bitstreamLine (options : String) : StageLine :=
  ⟨"bitgen " ++ options, [".ncd", bitstreamExtension]⟩

/-- The stages of a control script. -/
def stageLines (netlist : Netlist) (options : ToolOptions) : List StageLine :=
  (match netlist with
    | .ngc => [synthesisLine]
    | .edif => []) ++
  [translateLine netlist options.ngdbuild, mappingLine options.map, placementLine options.par,
    bitstreamLine options.bitgen]

theorem text_synthesisLine (name : String) : synthesisLine.text name = synthesis name := by
  refine String.toList_inj.1 ?_
  simp [synthesis, synthesisLine, StageLine.text, StageLine.files]

theorem text_translateLine (name : String) (netlist : Netlist) (options : String) :
    (translateLine netlist options).text name = translate name netlist options := by
  unfold translate translateLine StageLine.text
  refine String.toList_inj.1 ?_
  simp [StageLine.files]

theorem text_mappingLine (name options : String) :
    (mappingLine options).text name = mapping name options := by
  refine String.toList_inj.1 ?_
  simp [mapping, mappingLine, StageLine.text, StageLine.files]

theorem text_placementLine (name options : String) :
    (placementLine options).text name = placement name options := by
  refine String.toList_inj.1 ?_
  simp [placement, placementLine, StageLine.text, StageLine.files]

theorem text_bitstreamLine (name options : String) :
    (bitstreamLine options).text name = bitstream name options := by
  refine String.toList_inj.1 ?_
  simp [bitstream, bitstreamLine, StageLine.text, StageLine.files]

theorem toolStages_eq (name : String) (netlist : Netlist) (options : ToolOptions) :
    toolStages name netlist options =
      (stageLines netlist options).map fun l => l.text name := by
  unfold toolStages stageLines
  rw [List.map_append]
  simp only [List.map_cons, List.map_nil, text_translateLine, text_mappingLine,
    text_placementLine, text_bitstreamLine]
  cases netlist with
  | ngc => rw [List.map_cons, text_synthesisLine, List.map_nil]
  | edif => rfl

/-- A stage with options between its command and its files. -/
theorem clean_of_options {front options : String} {endings : List String}
    (hfront : Shell.Unquoted front) (h : Shell.Closed options)
    (hne : endings ≠ []) (hendings : ∀ e ∈ endings, e ≠ "" ∧ Shell.Plain e) :
    StageLine.Clean ⟨front ++ options, endings⟩ :=
  ⟨h.append_left hfront, hne, hendings⟩

/-- The same with a flag before the files. -/
theorem clean_of_flag {front options flag : String} {endings : List String}
    (hfront : Shell.Unquoted front) (h : Shell.Closed options)
    (hflag : Shell.Unquoted flag) (hne : endings ≠ [])
    (hendings : ∀ e ∈ endings, e ≠ "" ∧ Shell.Plain e) :
    StageLine.Clean ⟨front ++ options ++ " " ++ flag, endings⟩ :=
  ⟨(h.append_left hfront).append_blank hflag, hne, hendings⟩

theorem clean_stageLines (netlist : Netlist) {options : ToolOptions} (h : options.Closed) :
    ∀ l ∈ stageLines netlist options, l.Clean := by
  have hsynthesis : synthesisLine.Clean := ⟨rfl, by decide, by decide⟩
  have htranslate : (translateLine netlist options.ngdbuild).Clean :=
    clean_of_flag (by decide) h.ngdbuild (by decide) (List.cons_ne_nil _ _)
      (by cases netlist <;> decide)
  have hmapping : (mappingLine options.map).Clean :=
    clean_of_flag (by decide) h.map (by decide) (List.cons_ne_nil _ _) (by decide)
  have hplacement : (placementLine options.par).Clean :=
    clean_of_options (by decide) h.par (List.cons_ne_nil _ _) (by decide)
  have hbitstream : (bitstreamLine options.bitgen).Clean :=
    clean_of_options (by decide) h.bitgen (List.cons_ne_nil _ _) (by decide)
  have htools : ∀ l ∈ [translateLine netlist options.ngdbuild, mappingLine options.map,
      placementLine options.par, bitstreamLine options.bitgen], l.Clean := by
    simp only [List.forall_mem_cons]
    exact ⟨htranslate, hmapping, hplacement, hbitstream, List.forall_mem_nil _⟩
  cases netlist with
  | ngc => exact List.forall_mem_cons.2 ⟨hsynthesis, htools⟩
  | edif => exact htools

end ControlScript

/-! ### The reading lines of the open synthesizer -/

namespace YosysScript

/-- The command that reads a source, with the directories of included files. -/
def readFront (includes : List Path) (s : SourceFile) : List String :=
  ("read_" ++ s.language.name) :: includes.map fun p => "-I" ++ p.text

theorem readText_eq (includes : List Path) (s : SourceFile) :
    "read_" ++ s.language.name ++ includeFlags includes ++ " " ++ s.path.text =
      String.intercalate " " (readFront includes s ++ [s.path.text]) := by
  have hflag (p : Path) : " " ++ ("-I" ++ p.text) = " -I" ++ p.text := by
    refine String.toList_inj.1 ?_
    simp
  rw [readFront, List.cons_append, Text.intercalate_cons, includeFlags, List.map_append,
    String.join_append, List.map_map]
  simp [Function.comp_def, hflag, String.append_assoc]

theorem words_read_iff (includes : List Path) (s : SourceFile) :
    Yosys.words (String.intercalate " " (readFront includes s ++ [s.path.text])) =
        readFront includes s ++ [s.path.text] ↔
      (∀ p ∈ includes, Yosys.Blankless p.text) ∧
        s.path.text ≠ "" ∧ Yosys.Blankless s.path.text ∧ ¬ Yosys.Quoted s.path.text := by
  have hfront : ∀ a ∈ readFront includes s, a.toList.head? ≠ some '"' := by
    simp [readFront]
  have hcommand : "read_" ++ s.language.name ≠ "" ∧
      Yosys.Blankless ("read_" ++ s.language.name) := by
    cases s.language <;> decide
  have hflag (p : Path) : ("-I" ++ p.text ≠ "" ∧ Yosys.Blankless ("-I" ++ p.text)) ↔
      Yosys.Blankless p.text := by
    rw [Yosys.blankless_append_iff, and_iff_right (by simp), and_iff_right (by decide)]
  rw [Yosys.words_line_iff hfront, readFront, List.cons_append, List.forall_mem_cons,
    and_iff_right hcommand, List.forall_mem_append, List.forall_mem_map, List.forall_mem_singleton]
  simp only [hflag, and_assoc]

end YosysScript

/-! ### What reaches the tools -/

/-- **Paths and names reach the tools as single words if and only if they are plain.** -/
theorem words_reach_tools_iff (v : View) (root : Path) (name : String) (netlist : Netlist)
    {options : ToolOptions} (device : Device) {sources : List SourceFile} {includes : List Path}
    (hoptions : options.Closed) (hname : '\n' ∉ name.toList) (hsources : Unbroken sources)
    (hincludes : ∀ p ∈ includes, '\n' ∉ p.text.toList) :
    (∀ version, v.newestVersion root = .ok version →
      ∃ command, v.environmentCommands root true = .ok [command] ∧
        (Shell.words command = ["source", (v.settingsScript root version hostBits).text] ↔
          Shell.Plain root.text)) ∧
    (ControlScript.toolStages name netlist options =
        (ControlScript.stageLines netlist options).map (fun l => l.text name) ∧
      ∀ l ∈ ControlScript.stageLines netlist options,
        (Shell.words (l.text name) = Shell.words l.front ++ l.files name ↔ Shell.Plain name)) ∧
    ∀ text, YosysScript.render device sources includes name = .ok text →
      List.Forall₂ (fun line s =>
        Yosys.words (String.ofList line) = YosysScript.readFront includes s ++ [s.path.text] ↔
          (∀ p ∈ includes, Yosys.Blankless p.text) ∧
            s.path.text ≠ "" ∧ Yosys.Blankless s.path.text ∧ ¬ Yosys.Quoted s.path.text)
        ((Text.lines text).filter readsFile) sources := by
  refine ⟨fun version hversion => ?_, ⟨?_, fun l hl => ?_⟩, fun text htext => ?_⟩
  · refine ⟨_, ?_, View.words_source_iff hversion⟩
    rw [View.environmentCommands_eq, hversion]
    rfl
  · exact ControlScript.toolStages_eq name netlist options
  · exact (ControlScript.clean_stageLines netlist hoptions l hl).words_iff
  · obtain ⟨architecture, harchitecture, -⟩ := bind_eq_ok_iff.1 htext
    rw [filter_readsFile_render harchitecture hsources hincludes hname htext,
      List.forall₂_map_left_iff, List.forall₂_same]
    intro s _
    rw [String.ofList_toList, YosysScript.readText_eq]
    exact YosysScript.words_read_iff includes s

/-- A tree with an installation below a root. -/
def installedBelow (root : Location) : View :=
  ⟨FileTree.empty.plant (root ++ ["14.7", "ISE_DS", "settings64.sh"]) (.file (.text "") false), []⟩

/-- Plain names are single words everywhere. -/
theorem words_plainBuild :
    (∃ command, (installedBelow ["opt", "Xilinx"]).environmentCommands ⟨"/opt/Xilinx"⟩ true =
        .ok [command] ∧
      Shell.words command = ["source", "/opt/Xilinx/14.7/ISE_DS/settings64.sh"]) ∧
    (∀ l ∈ ControlScript.stageLines .ngc {},
      Shell.words (l.text "soc") = Shell.words l.front ++ l.files "soc") ∧
    ∃ text line, YosysScript.render ⟨"xc6slx9"⟩ [⟨⟨"/cores/uart.v"⟩, .verilog⟩] [⟨"/cores/inc"⟩]
        "soc" = .ok text ∧
      (Text.lines text).filter readsFile = [line] ∧
      Yosys.words (String.ofList line) = ["read_verilog", "-I/cores/inc", "/cores/uart.v"] := by
  have hoptions : ToolOptions.Closed {} := ⟨rfl, rfl, rfl, rfl⟩
  have hsources : Unbroken [⟨⟨"/cores/uart.v"⟩, .verilog⟩] :=
    List.forall_mem_singleton.2 (by decide)
  have hincludes : ∀ p ∈ [Path.mk "/cores/inc"], '\n' ∉ p.text.toList :=
    List.forall_mem_singleton.2 (by decide)
  obtain ⟨hsource, ⟨-, hstages⟩, hread⟩ :=
    words_reach_tools_iff (installedBelow ["opt", "Xilinx"]) ⟨"/opt/Xilinx"⟩ "soc" .ngc
      ⟨"xc6slx9"⟩ hoptions (by decide) hsources hincludes
  refine ⟨?_, ?_, ?_⟩
  · have hversion : (installedBelow ["opt", "Xilinx"]).newestVersion ⟨"/opt/Xilinx"⟩ =
        .ok ⟨"14.7", ['1', '4'], ['7']⟩ := by
      decide +kernel
    have hscript : ((installedBelow ["opt", "Xilinx"]).settingsScript ⟨"/opt/Xilinx"⟩
        ⟨"14.7", ['1', '4'], ['7']⟩ hostBits).text = "/opt/Xilinx/14.7/ISE_DS/settings64.sh" := by
      decide +kernel
    obtain ⟨command, hcommand, hwords⟩ := hsource _ hversion
    exact ⟨command, hcommand, hscript ▸ hwords.2 (by decide)⟩
  · have hplain : Shell.Plain "soc" := by decide
    exact fun l hl => (hstages l hl).2 hplain
  · obtain ⟨text, htext⟩ : ∃ text, YosysScript.render ⟨"xc6slx9"⟩
        [⟨⟨"/cores/uart.v"⟩, .verilog⟩] [⟨"/cores/inc"⟩] "soc" = .ok text := ⟨_, rfl⟩
    obtain ⟨line, rest, hwords, hrest, hline⟩ := List.forall₂_cons_right_iff.1 (hread text htext)
    obtain rfl := List.forall₂_nil_right_iff.1 hrest
    have hquoted : ¬ Yosys.Quoted "/cores/uart.v" := by
      rintro ⟨s, hs⟩
      cases hs
    exact ⟨text, line, htext, hline, hwords.2 ⟨by decide, by decide, by decide, hquoted⟩⟩

/-- A blank in the root of the installations, in the name of a build or in the path of a source
makes two words of it. -/
theorem words_blanks :
    (installedBelow ["my ise"]).environmentCommands ⟨"/my ise"⟩ true =
        .ok ["source /my ise/14.7/ISE_DS/settings64.sh"] ∧
      Shell.words "source /my ise/14.7/ISE_DS/settings64.sh" =
        ["source", "/my", "ise/14.7/ISE_DS/settings64.sh"] ∧
      Shell.words (ControlScript.synthesis "my top") = ["xst", "-ifn", "my", "top.xst"] ∧
      YosysScript.render ⟨"xc6slx9"⟩ [⟨⟨"/cores/my uart.v"⟩, .verilog⟩] [] "top" =
        .ok ("read_verilog /cores/my uart.v\n" ++ YosysScript.synthesis "spartan6" "top") ∧
      Yosys.words "read_verilog /cores/my uart.v" = ["read_verilog", "/cores/my", "uart.v"] := by
  decide +kernel

end FpgaFlow
