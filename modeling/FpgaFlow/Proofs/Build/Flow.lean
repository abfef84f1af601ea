import FpgaFlow.Proofs.Build.Sheets
import FpgaFlow.Proofs.Build.Written

/-!
# Files from tool to tool

The steps of a build are its tools in the order in which they run.  A line names the
files that a tool reads and the files that it makes (`uses?`), and a tool that reads a
script comes to the files that the script names (`Comes`).  Steps are closed over the
files that are there if every file that a step reads is one of these or was made by an
earlier step (`Closed`).

**Main statement** `flows`: the steps of a build are closed over the files that it
writes, and they lead from the written design to the bitstream (`Flows`).
-/

namespace FpgaFlow.Build

/-- What is done with a file. -/
inductive Use where
  | reads (file : String)
  | makes (file : String)
  deriving DecidableEq, Repr

/-- What is done with files on a line of these words: of the control script, of a script that one
of its tools reads, or of a call of the open synthesizer. Other lines are not understood. -/
def uses? : List String → Option (List Use)
  | ["xst", "-ifn", script] => some [.reads script]
  | ["ngdbuild", "-uc", constraints, netlist, design] =>
    some [.reads constraints, .reads netlist, .makes design]
  | ["ngdbuild", "-p", _, "-uc", constraints, netlist, design] =>
    some [.reads constraints, .reads netlist, .makes design]
  | ["map", "-o", mapped, design, physical] =>
    some [.reads design, .makes mapped, .makes physical]
  | ["par", mapped, routed, physical] => some [.reads mapped, .reads physical, .makes routed]
  | ["bitgen", routed, bitstream] => some [.reads routed, .makes bitstream]
  | ["yosys", script] => some [.reads script]
  | ["-ifn", list] => some [.reads list]
  | ["-ofn", netlist] => some [.makes netlist]
  | ["verilog", "work", source] => some [.reads source]
  | ["read_verilog", source] => some [.reads source]
  | ["synth_xilinx", "-arch", _, "-top", _, "-edif", netlist] => some [.makes netlist]
  | [] | ["run"] | ["-top", _] | ["-p", _] | ["-vlgincdir"] => some []
  | ["verilog", "work"] | ["vhdl", "work"] | ["read_verilog"] | ["read_vhdl"] => some []
  | ["hierarchy", "-check", "-top", _] | ["proc;", "memory;", "opt;", "fsm;", "opt"] => some []
  | _ => none

section

variable (sheets : List (String × Sheet))

/-- A line comes to a use of a file: its own words name it, or it reads a script with a line that
comes to it. -/
inductive Comes : Line → Use → Prop
  | named {l : Line} {us : List Use} {u : Use} : uses? (ownWords l) = some us → u ∈ us → Comes l u
  | through {l l' : Line} {us : List Use} {script : String} {s : Sheet} {u : Use} :
      uses? (ownWords l) = some us → .reads script ∈ us → (script, s) ∈ sheets → l' ∈ s →
      Comes l' u → Comes l u

/-- Every step is understood, and what it reads is there or was made by an earlier step. -/
def Closed (there : List String) (steps : List Line) : Prop :=
  ∀ before l rest, steps = before ++ l :: rest → (uses? (ownWords l)).isSome ∧
    ∀ f, Comes sheets l (.reads f) →
      f ∈ there ∨ ∃ earlier ∈ before, Comes sheets earlier (.makes f)

end

/-- Every line is understood, and what it reads is there. -/
def Grounded (there : List String) (s : Sheet) : Prop :=
  ∀ l ∈ s, ∃ us, uses? (ownWords l) = some us ∧ ∀ f, .reads f ∈ us → f ∈ there

/-- How a netlist comes about by the steps so far: the synthesizer of the vendor reads a script,
which names the netlist and a list of sources with the design at its end; the open synthesizer
reads a script that reads the design and ends with the netlist; or it was there from the
beginning. -/
def Supplied (sheets : List (String × Sheet)) (there : List String) (steps : List Line)
    (netlist : String) : Mode → Prop
  | .xst => ∃ script project list sources design,
      ownLine ["xst", "-ifn", script] ∈ steps ∧ (script, project) ∈ sheets ∧
      ownLine ["-ifn", list] ∈ project ∧ ownLine ["-ofn", netlist] ∈ project ∧
      (list, sources ++ [ownLine ["verilog", "work", design], []]) ∈ sheets ∧ design ∈ there
  | .yosys => ∃ script lines l design architecture,
      ownLine ["yosys", script] ∈ steps ∧ (script, lines) ∈ sheets ∧
      l ∈ lines ∧ ownWords l = ["read_verilog", design] ∧ design ∈ there ∧
      lines.getLast? = some
        (ownLine ["synth_xilinx", "-arch", architecture, "-top", "top", "-edif", netlist])
  | .edif | .mist => netlist ∈ there

/-- The steps lead from the files that are there to a bitstream. -/
structure Flows (mode : Mode) (sheets : List (String × Sheet)) (there : List String)
    (steps : List Line) (bitstream : String) : Prop where
  grounded : ∀ q ∈ sheets, Grounded there q.2
  closed : Closed sheets there steps
  translated : ∃ before tool constraints netlist design rest,
    steps = before ++ (tool ++ ownLine ["-uc", constraints, netlist, design]) :: rest ∧
      tool.head? = some (.own "ngdbuild") ∧ constraints ∈ there ∧
      Supplied sheets there before netlist mode
  finished : ∃ tool routed, steps.getLast? = some (tool ++ ownLine [routed, bitstream]) ∧
    tool.head? = some (.own "bitgen")

/-! ### Steps that close -/

section

variable {sheets : List (String × Sheet)} {there : List String} {steps : List Line} {l : Line}
  {us : List Use}

/-- What a line comes to read it names itself, or it is there. -/
theorem mem_of_comes (hsheets : ∀ q ∈ sheets, Grounded there q.2) {u : Use}
    (h : Comes sheets l u) : ∀ {us f}, uses? (ownWords l) = some us → u = .reads f →
      .reads f ∈ us ∨ f ∈ there := by
  induction h with
  | named hl hu =>
    rintro us f hus rfl
    obtain rfl := Option.some.inj (hl.symm.trans hus)
    exact .inl hu
  | through _ _ hs hl' _ ih =>
    rintro us f _ rfl
    obtain ⟨us', hus', hthere⟩ := hsheets _ hs _ hl'
    exact .inr ((ih hus' rfl).elim (hthere f) id)

theorem grounded_nil (there : List String) : Grounded there [] := by
  intro l hl
  cases hl

theorem grounded_cons {s : Sheet} (hl : uses? (ownWords l) = some us)
    (hreads : ∀ f, .reads f ∈ us → f ∈ there) (hs : Grounded there s) :
    Grounded there (l :: s) := by
  intro l' hl'
  rcases List.mem_cons.1 hl' with rfl | hl'
  · exact ⟨us, hl, hreads⟩
  · exact hs l' hl'

/-- A line that uses no file. -/
theorem grounded_cons_idle {s : Sheet} (hl : uses? (ownWords l) = some []) (hs : Grounded there s) :
    Grounded there (l :: s) :=
  grounded_cons hl (fun _ hf => by cases hf) hs

theorem grounded_map {α : Type} {w : α → Line} (hw : ∀ a, uses? (ownWords (w a)) = some [])
    (as : List α) : Grounded there (as.map w) := by
  induction as with
  | nil => exact grounded_nil there
  | cons a as ih => exact grounded_cons_idle (hw a) ih

theorem Grounded.append {s t : Sheet} (hs : Grounded there s) (ht : Grounded there t) :
    Grounded there (s ++ t) := by
  intro l hl
  rcases List.mem_append.1 hl with hl | hl
  · exact hs l hl
  · exact ht l hl

/-- Scripts that read only what is there go on doing so when more is there. -/
theorem grounded_mono (h : ∀ q ∈ sheets, Grounded there q.2) (made : List String) :
    ∀ q ∈ sheets, Grounded (there ++ made) q.2 := by
  intro q hq l hl
  obtain ⟨us, hus, hthere⟩ := h q hq l hl
  exact ⟨us, hus, fun f hf => List.mem_append_left _ (hthere f hf)⟩

theorem closed_nil : Closed sheets there [] := by
  intro before l rest h
  cases before <;> cases h

theorem comes_of_subset (hl : uses? (ownWords l) = some us) {made : List String}
    (h : made.map Use.makes ⊆ us) : ∀ f ∈ made, Comes sheets l (.makes f) :=
  fun _ hf => .named hl (h (List.mem_map_of_mem hf))

/-- **One step** is closed when what it names is there. -/
theorem closed_singleton (hsheets : ∀ q ∈ sheets, Grounded there q.2)
    (hl : uses? (ownWords l) = some us) (hreads : ∀ f, .reads f ∈ us → f ∈ there) :
    Closed sheets there [l] := by
  intro before l' rest heq
  obtain rfl : l' = l := by
    have hmem : l' ∈ [l] := heq ▸ List.mem_append_right before List.mem_cons_self
    exact List.mem_singleton.1 hmem
  refine ⟨by rw [hl]; rfl, fun f hf => .inl ?_⟩
  exact (mem_of_comes hsheets hf hl rfl).elim (hreads f) id

/-- **Steps go on** from what is there and what the steps before them make. -/
theorem Closed.append {first : List Line} (hfirst : Closed sheets there first) (made : List String)
    (hmade : ∀ f ∈ made, f ∈ there ∨ ∃ l ∈ first, Comes sheets l (.makes f))
    (hsteps : Closed sheets (there ++ made) steps) : Closed sheets there (first ++ steps) := by
  -- A step of the second part comes after all of the first.
  have hsecond : ∀ mid l rest, steps = mid ++ l :: rest → (uses? (ownWords l)).isSome ∧
      ∀ f, Comes sheets l (.reads f) →
        f ∈ there ∨ ∃ earlier ∈ first ++ mid, Comes sheets earlier (.makes f) := by
    intro mid l rest heq
    obtain ⟨hsome, hclosed⟩ := hsteps mid l rest heq
    refine ⟨hsome, fun f hf => ?_⟩
    rcases hclosed f hf with hf | ⟨earlier, hearlier, hmakes⟩
    · rcases List.mem_append.1 hf with hf | hf
      · exact .inl hf
      · refine (hmade f hf).imp_right fun ⟨earlier, hearlier, hmakes⟩ => ?_
        exact ⟨earlier, List.mem_append_left _ hearlier, hmakes⟩
    · exact .inr ⟨earlier, List.mem_append_right _ hearlier, hmakes⟩
  intro before l rest heq
  rcases List.append_eq_append_iff.1 heq with ⟨mid, rfl, hsplit⟩ | ⟨mid, hsplit, hrest⟩
  · exact hsecond mid l rest hsplit
  · cases mid with
    | nil =>
      rw [List.append_nil] at hsplit
      have hlast := hsecond [] l rest hrest.symm
      rwa [List.append_nil, hsplit] at hlast
    | cons l' mid =>
      obtain ⟨rfl, -⟩ := List.cons.inj hrest
      exact hfirst before l mid hsplit

theorem closed_cons (made : List String) (hsheets : ∀ q ∈ sheets, Grounded there q.2)
    (hl : uses? (ownWords l) = some us) (hreads : ∀ f, .reads f ∈ us → f ∈ there)
    (hmade : ∀ f ∈ made, Comes sheets l (.makes f))
    (hsteps : Closed sheets (there ++ made) steps) : Closed sheets there (l :: steps) :=
  (closed_singleton hsheets hl hreads).append made
    (fun f hf => .inr ⟨l, List.mem_singleton_self l, hmade f hf⟩) hsteps

/-- A netlist that comes about is there, or a step made it. -/
theorem Supplied.made {netlist : String} {mode : Mode}
    (h : Supplied sheets there steps netlist mode) :
    netlist ∈ there ∨ ∃ l ∈ steps, Comes sheets l (.makes netlist) := by
  have hthrough {l l' : Line} {script : String} {s : Sheet}
      (hl : uses? (ownWords l) = some [.reads script]) (hs : (script, s) ∈ sheets) (hl' : l' ∈ s)
      (hmakes : uses? (ownWords l') = some [.makes netlist]) : Comes sheets l (.makes netlist) :=
    .through hl (List.mem_singleton_self _) hs hl' (.named hmakes (List.mem_singleton_self _))
  cases mode with
  | xst =>
    obtain ⟨script, project, _, _, _, hl, hs, -, hl', -, -⟩ := h
    exact .inr ⟨_, hl, hthrough rfl hs hl' rfl⟩
  | yosys =>
    obtain ⟨script, lines, _, _, _, hl, hs, -, -, -, hl'⟩ := h
    exact .inr ⟨_, hl, hthrough rfl hs (List.mem_of_getLast? hl') rfl⟩
  | edif => exact .inl h
  | mist => exact .inl h

end

/-! ### The steps of a build -/

variable (o : Options)

/-- The scripts that tools of a build read. There is none for a device without an architecture. -/
def sheets : List (String × Sheet) :=
  match o.mode with
  | .xst => [(o.name ++ ".prj", projectSheet o), (o.name ++ ".xst", runScriptSheet o)]
  | .yosys => match o.device.architecture with
    | .ok architecture => [(o.name ++ ".ys", yosysSheet o architecture)]
    | .error _ => []
  | .edif | .mist => []

/-- The tools of a build: the open synthesizer is called before the control script. -/
def steps : List Line :=
  (if o.mode = .yosys then [ownLine ["yosys", o.name ++ ".ys"]] else []) ++ stageLines o

theorem uses?_translateLine : uses? (ownWords (translateLine o)) =
    some [.reads (o.name ++ ".ucf"), .reads (netlistName o), .makes (o.name ++ ".ngd")] := by
  rw [translateLine, translateWords]
  split
  next =>
    split <;> rfl
  next => rfl

theorem uses?_mappingLine : uses? (ownWords (mappingLine o)) =
    some [.reads (o.name ++ ".ngd"), .makes (o.name ++ "_map.ncd"), .makes (o.name ++ ".pcf")] :=
  rfl

theorem uses?_placementLine : uses? (ownWords (placementLine o)) =
    some [.reads (o.name ++ "_map.ncd"), .reads (o.name ++ ".pcf"), .makes (o.name ++ ".ncd")] :=
  rfl

theorem uses?_bitstreamLine : uses? (ownWords (bitstreamLine o)) =
    some [.reads (o.name ++ ".ncd"), .makes (o.name ++ ".bit")] :=
  rfl

section

variable {o} {there : List String}

theorem grounded_projectSheet (hv : o.name ++ ".v" ∈ there) :
    Grounded there (projectSheet o) := by
  have hsource (s : SourceFile) : uses? (ownWords (sourceWords s)) = some [] := by
    cases s with
    | mk path language => cases language <;> rfl
  have htop : Grounded there [ownLine ["verilog", "work", o.name ++ ".v"], []] :=
    grounded_cons rfl (by simpa using hv) (grounded_cons_idle rfl (grounded_nil there))
  exact (grounded_map hsource o.sources).append htop

theorem grounded_runScriptSheet (hprj : o.name ++ ".prj" ∈ there) :
    Grounded there (runScriptSheet o) := by
  have hinclude (p : Path) : uses? (ownWords (includeWords p)) = some [] := rfl
  have hend : Grounded there [[]] := grounded_cons_idle rfl (grounded_nil there)
  refine Grounded.append (.append ?_ (grounded_map hinclude o.includes)) hend
  refine grounded_cons_idle rfl (grounded_cons rfl (by simpa using hprj) ?_)
  refine grounded_cons_idle rfl (grounded_cons_idle rfl ?_)
  exact grounded_cons rfl (by simp) (grounded_cons_idle rfl (grounded_nil there))

theorem ownWords_readWords (language : Language) (file : Word) :
    ownWords (readWords o language file) = ("read_" ++ language.name) :: file.own?.toList := by
  have hflags : (o.includes.map fun p => Word.given ("-I" ++ p.text)).filterMap Word.own? = [] := by
    rw [List.filterMap_map, List.filterMap_eq_nil_iff]
    exact fun _ _ => rfl
  have hkeyword : (Word.own ("read_" ++ language.name)).own? = some ("read_" ++ language.name) :=
    rfl
  rw [readWords, ownWords, List.cons_append, List.filterMap_cons_some hkeyword,
    List.filterMap_append, hflags, List.nil_append]
  cases file <;> rfl

theorem grounded_yosysSheet (hv : o.name ++ ".v" ∈ there) (architecture : String) :
    Grounded there (yosysSheet o architecture) := by
  have hsource (s : SourceFile) :
      uses? (ownWords (readWords o s.language (.given s.path.text))) = some [] := by
    rw [ownWords_readWords]
    cases s.language <;> rfl
  have htop : uses? (ownWords (readWords o .verilog (.own (o.name ++ ".v")))) =
      some [.reads (o.name ++ ".v")] := by
    rw [ownWords_readWords]
    rfl
  have hread : Grounded there (readLines o) :=
    (grounded_map hsource o.sources).append
      (grounded_cons htop (by simpa using hv) (grounded_nil there))
  refine hread.append (grounded_cons_idle rfl (grounded_cons_idle rfl ?_))
  exact grounded_cons rfl (by simp) (grounded_nil there)

/-- The scripts of a build read only the design and the list of its sources. -/
theorem grounded_of_mem_sheets (hv : o.mode.usesVerilog = true → o.name ++ ".v" ∈ there)
    (hprj : o.mode = .xst → o.name ++ ".prj" ∈ there) {q : String × Sheet} (hq : q ∈ sheets o) :
    Grounded there q.2 := by
  rw [sheets] at hq
  cases hm : o.mode with
  | xst =>
    rw [hm] at hq hv
    rcases List.mem_cons.1 hq with rfl | hq
    · exact grounded_projectSheet (hv rfl)
    · obtain rfl := List.mem_singleton.1 hq
      exact grounded_runScriptSheet (hprj hm)
  | yosys =>
    rw [hm] at hq hv
    cases ha : o.device.architecture with
    | error f =>
      rw [ha] at hq
      cases hq
    | ok architecture =>
      rw [ha] at hq
      obtain rfl := List.mem_singleton.1 hq
      exact grounded_yosysSheet (hv rfl) architecture
  | edif =>
    rw [hm] at hq
    cases hq
  | mist =>
    rw [hm] at hq
    cases hq

/-- **The scripts of a build read only what was written.** -/
theorem grounded_sheets {q : String × Sheet} (hq : q ∈ sheets o) :
    Grounded (fileNames o.mode o.name false) q.2 := by
  refine grounded_of_mem_sheets (fun hv => ?_) (fun hm => ?_) hq
  · cases hm : o.mode <;> simp_all [fileNames, Mode.usesVerilog]
  · simp [fileNames, hm]

/-- The implementation tools hand on what they make, from the netlist to the bitstream. -/
theorem closed_toolLines {sheets : List (String × Sheet)}
    (h₀ : ∀ q ∈ sheets, Grounded there q.2) (hucf : o.name ++ ".ucf" ∈ there)
    (hnetlist : netlistName o ∈ there) : Closed sheets there (toolLines o) := by
  have h₁ := grounded_mono h₀ [o.name ++ ".ngd"]
  have h₂ := grounded_mono h₁ [o.name ++ "_map.ncd", o.name ++ ".pcf"]
  have h₃ := grounded_mono h₂ [o.name ++ ".ncd"]
  refine closed_cons [o.name ++ ".ngd"] h₀ (uses?_translateLine o) (by simp [hucf, hnetlist])
    (comes_of_subset (uses?_translateLine o) (by simp)) ?_
  refine closed_cons [o.name ++ "_map.ncd", o.name ++ ".pcf"] h₁ (uses?_mappingLine o) (by simp)
    (comes_of_subset (uses?_mappingLine o) (by simp)) ?_
  refine closed_cons [o.name ++ ".ncd"] h₂ (uses?_placementLine o) (by simp)
    (comes_of_subset (uses?_placementLine o) (by simp)) ?_
  exact closed_cons [] h₃ (uses?_bitstreamLine o) (by simp) (by simp) closed_nil

/-- What comes before the tool that reads the netlist. -/
def synthesisSteps (o : Options) : List Line :=
  match o.mode with
  | .xst => [synthesisLine o]
  | .yosys => [ownLine ["yosys", o.name ++ ".ys"]]
  | .edif | .mist => []

theorem steps_eq (o : Options) : steps o = synthesisSteps o ++ toolLines o := by
  unfold steps stageLines synthesisSteps
  cases o.mode <;> rfl

/-- The netlist comes about before it is read. -/
theorem supplied_synthesisSteps (harch : o.mode = .yosys → ∃ a, o.device.architecture = .ok a) :
    Supplied (sheets o) (fileNames o.mode o.name false) (synthesisSteps o) (netlistName o)
      o.mode := by
  have hnetlist : netlistName o = o.name ++ "." ++ o.mode.netlist.name := rfl
  rw [hnetlist, sheets, synthesisSteps]
  cases hm : o.mode with
  | xst =>
    refine ⟨o.name ++ ".xst", runScriptSheet o, o.name ++ ".prj", o.sources.map sourceWords,
      o.name ++ ".v", List.mem_singleton_self _,
      List.mem_cons_of_mem _ (List.mem_singleton_self _), ?_, ?_, List.mem_cons_self, ?_⟩
    · simp [runScriptSheet]
    · have hngc : o.name ++ "." ++ Mode.xst.netlist.name = o.name ++ ".ngc" := by
        simp [Mode.netlist, Netlist.name, String.append_assoc]
      simp [runScriptSheet, hngc]
    · simp [fileNames]
  | yosys =>
    obtain ⟨a, ha⟩ := harch hm
    have hedif : o.name ++ "." ++ Mode.yosys.netlist.name = o.name ++ ".edif" := by
      simp [Mode.netlist, Netlist.name, String.append_assoc]
    rw [ha, hedif]
    refine ⟨o.name ++ ".ys", yosysSheet o a, readWords o .verilog (.own (o.name ++ ".v")),
      o.name ++ ".v", a, List.mem_singleton_self _, List.mem_singleton_self _, ?_,
      ownWords_readWords _ _, ?_, ?_⟩
    · simp [yosysSheet, readLines]
    · simp [fileNames]
    · simp [yosysSheet, synthesisLines]
  | edif => simp [Supplied, fileNames, Mode.netlist, Netlist.name, String.append_assoc]
  | mist => simp [Supplied, fileNames, Mode.netlist, Netlist.name, String.append_assoc]

theorem closed_synthesisSteps :
    Closed (sheets o) (fileNames o.mode o.name false) (synthesisSteps o) := by
  have hground : ∀ q ∈ sheets o, Grounded (fileNames o.mode o.name false) q.2 :=
    fun _ => grounded_sheets
  rw [synthesisSteps]
  cases hm : o.mode with
  | xst =>
    rw [hm] at hground
    have hl : uses? (ownWords (synthesisLine o)) = some [.reads (o.name ++ ".xst")] := rfl
    exact closed_singleton hground hl (by simp [fileNames])
  | yosys =>
    rw [hm] at hground
    have hl : uses? (ownWords (ownLine ["yosys", o.name ++ ".ys"])) =
      some [.reads (o.name ++ ".ys")] := rfl
    exact closed_singleton hground hl (by simp [fileNames])
  | edif => exact closed_nil
  | mist => exact closed_nil

/-- **The steps of a build are closed** over the files that it writes before its control script. -/
theorem closed_steps (harch : o.mode = .yosys → ∃ a, o.device.architecture = .ok a) :
    Closed (sheets o) (fileNames o.mode o.name false) (steps o) := by
  have hground : ∀ q ∈ sheets o, Grounded (fileNames o.mode o.name false) q.2 :=
    fun _ => grounded_sheets
  have hucf : o.name ++ ".ucf" ∈ fileNames o.mode o.name false := by simp [fileNames]
  rw [steps_eq]
  refine closed_synthesisSteps.append [netlistName o] ?_ ?_
  · intro f hf
    obtain rfl := List.mem_singleton.1 hf
    exact (supplied_synthesisSteps harch).made
  · exact closed_toolLines (grounded_mono hground _) (List.mem_append_left _ hucf)
      (List.mem_append_right _ (List.mem_singleton_self _))

/-- **The files of a build flow from the written design to the bitstream.** -/
theorem flows (harch : o.mode = .yosys → ∃ a, o.device.architecture = .ok a) :
    Flows o.mode (sheets o) (fileNames o.mode o.name false) (steps o) (o.name ++ ".bit") where
  grounded := fun _ => grounded_sheets
  closed := closed_steps harch
  translated := by
    refine ⟨synthesisSteps o, [.own "ngdbuild"] ++ translateWords o, o.name ++ ".ucf",
      netlistName o, o.name ++ ".ngd", [mappingLine o, placementLine o, bitstreamLine o],
      ?_, rfl, by simp [fileNames], supplied_synthesisSteps harch⟩
    rw [steps_eq]
    rfl
  finished := by
    refine ⟨[.own "bitgen", .given o.tools.bitgen], o.name ++ ".ncd", ?_, rfl⟩
    rw [steps_eq]
    simp [toolLines, bitstreamLine]

end

end FpgaFlow.Build
