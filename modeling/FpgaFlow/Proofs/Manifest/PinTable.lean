import FpgaFlow.Proofs.Manifest.Shape
import FpgaFlow.Proofs.Schema.Form
import FpgaFlow.Proofs.Ucf.ReadBack

/-!
# The pins of a manifest

A signal of a manifest that is accepted has a pin (`pins_ne_nil`), so that it has a line
in the constraint file.  It has one line for each of its pins, in their order, and the
clauses on them are those that its table sets (`SetBy`, `Lined`).

**Main statement** `pins_laid_out`: the constraint file of a manifest is the lines of all
signals, and the commands behind them.
-/

namespace FpgaFlow

namespace Schema

section

variable {α : Type} {form : Form} {encode : α → Datum} {decode : Reader α}
  {entries : List (String × Datum)} {field : String}

/-- What a table has for a field that has to be there. -/
theorem lookup_of_required (h : Faithful form encode decode) (hfull : ∀ d, form.normal d = d)
    {a : α} (ha : Members.required ⟨entries, none, none⟩ field decode = .ok a) :
    entries.lookup field = some (encode a) := by
  rw [Members.required] at ha
  cases hlookup : entries.lookup field with
  | none =>
    simp only [hlookup] at ha
    cases ha
  | some d =>
    simp only [hlookup] at ha
    rw [(h.eq_ok_iff hfull).1 ha]

/-- What a table has for a field with a value to take when it is not there. -/
theorem lookup_of_withDefault (h : Faithful form encode decode) (hfull : ∀ d, form.normal d = d)
    {default a : α} (ha : Members.withDefault ⟨entries, none, none⟩ field default decode = .ok a) :
    (entries.lookup field).getD (encode default) = encode a := by
  rw [Members.withDefault] at ha
  cases hlookup : entries.lookup field with
  | none =>
    simp only [hlookup] at ha
    rw [Except.ok.inj ha]
    rfl
  | some d =>
    simp only [hlookup] at ha
    rw [(h.eq_ok_iff hfull).1 ha]
    rfl

/-- What a table has for a field that need not be there. -/
theorem lookup_of_optional (h : Faithful form encode decode) (hfull : ∀ d, form.normal d = d)
    (hnull : ∀ a, encode a ≠ .null) {x : Option α}
    (hx : Members.optional ⟨entries, none, none⟩ field decode = .ok x) (a : α) :
    x = some a ↔ entries.lookup field = some (encode a) := by
  have hfull' : ∀ d, form.optional.normal d = d := by
    intro d
    cases d <;> first | rfl | exact hfull _
  rw [Members.optional] at hx
  cases hlookup : entries.lookup field with
  | none =>
    simp only [hlookup] at hx
    rw [← Except.ok.inj hx]
    simp
  | some d =>
    simp only [hlookup] at hx
    rw [((h.optional hnull).eq_ok_iff hfull').1 hx]
    cases x with
    | none => simpa [Datum.ofOption] using (hnull a).symm
    | some b =>
      rw [Datum.ofOption, Option.some.injEq, Option.some.injEq]
      exact ⟨congrArg encode, h.encode_injective⟩

end

theorem full_texts (d : Datum) : (Form.items .text).normal d = d := by
  cases d with
  | list ds => exact congrArg Datum.list (List.map_id ds)
  | _ => rfl

end Schema

open Schema

/-! ### One signal -/

namespace Ucf

/-- A line with its parts in their places. -/
def lineWith (net : String) (clauses : List String) (resource : String) : String :=
  "NET \"" ++ net ++ "\" " ++ String.intercalate " | " clauses ++ "; # " ++ resource ++ "\n"

end Ucf

namespace SignalEntry

/-- The clauses of a signal behind the place of the pin. -/
def settings (s : SignalEntry) : List String :=
  (s.ioStandard.map fun standard => "IOSTANDARD=" ++ standard).toList ++
    (s.drive.map fun strength => "DRIVE=" ++ toString strength.toNat).toList ++ s.misc

/-- The net of a pin. -/
def net (s : SignalEntry) (k : Nat) : String :=
  if s.pins.length = 1 then s.name else s.name ++ "(" ++ toString k ++ ")"

/-- A signal has the pins and the settings of its table. -/
structure SetBy (entries : List (String × Datum)) (s : SignalEntry) : Prop where
  name : entries.lookup "name" = some (.text s.name)
  pins : entries.lookup "pins" = some (Datum.texts s.pins)
  ioStandard : ∀ x, s.ioStandard = some x ↔ entries.lookup "iostandard" = some (.text x)
  drive : ∀ n, s.drive = some n ↔ entries.lookup "drive" = some (.int n.toNat)
  misc : (entries.lookup "misc").getD (Datum.texts []) = Datum.texts s.misc

/-- A signal has one line for each pin, in the order of the pins. -/
structure Lined (s : SignalEntry) (lines : List String) : Prop where
  ne_nil : lines ≠ []
  count : lines.length = s.pins.length
  line : ∀ k pin, s.pins[k]? = some pin → lines[k]? = some (Ucf.lineWith (s.net k)
    (("LOC=" ++ pin) :: s.settings) (Resource.name ⟨s.resource.getD s.name, s.index, s.subsignal⟩))

theorem setBy_of_decode {d : Datum} {s : SignalEntry} (h : decode d = .ok s) :
    ∃ entries, d = .map entries ∧ s.SetBy entries := by
  cases d with
  | map entries =>
    have hread := readFrom_of_decode h
    refine ⟨entries, rfl, ?_⟩
    constructor
    case name => exact lookup_of_required faithful_text (fun _ => rfl) hread.name
    case pins => exact lookup_of_required faithful_text.items full_texts hread.pins
    case ioStandard =>
      exact lookup_of_optional faithful_text (fun _ => rfl) (fun _ => by simp) hread.ioStandard
    case drive =>
      exact lookup_of_optional faithful_word32 (fun _ => rfl) (fun _ => by simp) hread.drive
    case misc => exact lookup_of_withDefault faithful_text.items full_texts hread.misc
  | _ => cases h

/-- The attributes that are not for other toolchains have one clause each. -/
theorem filterMap_attributes (s : SignalEntry) :
    s.attributes.filterMap Ucf.clause? = s.settings := by
  have hbare : s.bare.attributes = (s.ioStandard.map Attribute.ioStandard).toList ++
      (s.drive.map Attribute.drive).toList ++ s.misc.map Attribute.misc := List.append_nil _
  have hmisc : (s.misc.map Attribute.misc).filterMap Ucf.clause? = s.misc := by
    rw [List.filterMap_map]
    exact List.filterMap_some
  rw [← s.filterMap_bare, hbare, settings, List.filterMap_append, List.filterMap_append, hmisc]
  cases s.ioStandard <;> cases s.drive <;> rfl

theorem netName_constraint (s : SignalEntry) {k : Nat} (hk : k < s.pins.length) :
    s.constraint.netName k = s.net k := by
  rw [SignalConstraint.netName, net, SignalConstraint.isVector]
  by_cases hone : s.pins.length = 1
  · simp [constraint, hone]
  · have hmore : 1 < s.pins.length := by omega
    simp [constraint, hone, hmore, Ucf.bitName]

/-- **No pin of a signal is lost, written twice or written for another net.** -/
theorem lined_signalLines (s : SignalEntry) (h : s.pins ≠ []) :
    s.Lined (Ucf.signalLines s.constraint) := by
  have hcount : (Ucf.signalLines s.constraint).length = s.pins.length := by
    rw [Ucf.signalLines, Ucf.nets_eq, SignalConstraint.bindings, List.length_map,
      List.length_mapIdx]
    rfl
  refine ⟨?_, hcount, fun k pin hpin => ?_⟩
  · intro hnil
    rw [hnil] at hcount
    exact h (List.length_eq_zero_iff.1 hcount.symm)
  · have hk : k < s.pins.length := (List.getElem?_eq_some_iff.1 hpin).1
    have hbinding : s.constraint.bindings[k]? = some (s.net k, pin) := by
      rw [SignalConstraint.bindings, List.getElem?_mapIdx, ← netName_constraint s hk]
      exact congrArg _ hpin
    have hline : Ucf.line (s.net k) pin s.constraint.attributes s.constraint.resource =
        Ucf.lineWith (s.net k) (("LOC=" ++ pin) :: s.settings) s.constraint.resource.name := by
      rw [← filterMap_attributes]
      rfl
    rw [Ucf.signalLines, Ucf.nets_eq, List.getElem?_map, hbinding]
    exact congrArg some hline

end SignalEntry

/-! ### All signals -/

namespace Manifest

variable {m : Manifest}

/-- What stands behind the lines of the signals: nothing, or a blank line and the commands with
blank lines between them. -/
def commandText (m : Manifest) : String :=
  if m.clocks.isEmpty && m.commands.isEmpty then ""
  else "\n" ++ String.intercalate "\n\n"
    (m.clocks.map (fun clock => periodCommand clock.name clock.period) ++ m.commands)

theorem commandBlock_platformCommands (m : Manifest) :
    Ucf.commandBlock m.platformCommands = m.commandText := by
  rw [platformCommands, commandText]
  cases m.clocks with
  | nil => cases m.commands <;> rfl
  | cons clock clocks => rfl

/-- Nothing is wrong with a manifest only if every signal has a pin. -/
theorem pins_ne_nil (h : m.fault? = none) : ∀ s ∈ m.signals, s.pins ≠ [] := by
  rw [fault?] at h
  cases hfind : m.signals.find? fun s => s.pins.isEmpty with
  | some s =>
    simp only [hfind] at h
    cases h
  | none =>
    intro s hs hnil
    exact List.find?_eq_none.1 hfind s hs (by simp [hnil])

/-- **The constraint file of a manifest has one line for each pin of each signal.** The signals come
in the order of their tables and with what these set, and the commands come behind all lines. -/
theorem pins_laid_out {v : View} {file : Path} (h : v.loadManifest file = .ok m) :
    ∃ text document, v.readText file = .ok text ∧ Toml.parse text = some document ∧
      List.Forall₂ (fun table s => ∃ entries, table = .map entries ∧ s.SetBy entries)
        (signalTables document) m.signals ∧
      ∃ lines, List.Forall₂ SignalEntry.Lined m.signals lines ∧
        Ucf.render m.constraints m.platformCommands =
          String.join lines.flatten ++ m.commandText := by
  obtain ⟨text, htext, hparse⟩ := bind_eq_ok_iff.1 h
  obtain ⟨entries, hdocument, hdecode, hfault⟩ := of_parse hparse
  refine ⟨text, _, htext, hdocument, ?_, ?_⟩
  · exact (signals_of_decode hdecode).imp fun _ _ hsignal => SignalEntry.setBy_of_decode hsignal
  · refine ⟨m.signals.map fun s => Ucf.signalLines s.constraint, ?_, ?_⟩
    · rw [List.forall₂_map_right_iff, List.forall₂_same]
      intro s hs
      exact s.lined_signalLines (pins_ne_nil hfault s hs)
    · rw [Ucf.render, commandBlock_platformCommands, constraints, List.flatMap_map,
        List.flatMap_def]

/-! ### The pins of a board -/

def boardText : String :=
  "platform_commands = [\"CONFIG VCCAUX = 3.3;\"]\n[design]\ndevice = \"xc6slx9\"\n" ++
    "verilog = \"top.v\"\n[[signal]]\nname = \"bus\"\npins = [\"A1\", \"B2\"]\n" ++
    "iostandard = \"LVCMOS33\"\ndrive = 8\nio_type = \"SB_LVCMOS\"\n[[signal]]\n" ++
    "name = \"clk\"\nmisc = [\"PULLUP\"]\npins = [\"C3\"]\n[[clock]]\nname = \"clk\"\nperiod = 20\n"

def boardView : View :=
  ⟨FileTree.empty.plant ["p", "Isebuild.toml"] (.file (.text boardText) false), ["p"]⟩

def boardConstraints : String :=
  "NET \"bus(0)\" LOC=A1 | IOSTANDARD=LVCMOS33 | DRIVE=8; # bus:0\n" ++
    "NET \"bus(1)\" LOC=B2 | IOSTANDARD=LVCMOS33 | DRIVE=8; # bus:0\n" ++
    "NET \"clk\" LOC=C3 | PULLUP; # clk:0\n\nNET \"clk\" TNM_NET = \"GRPclk\";\n" ++
    "TIMESPEC \"TSclk\" = PERIOD \"GRPclk\" 20 ns HIGH 50%;\n\nCONFIG VCCAUX = 3.3;"

theorem laid_out_boardText : ∃ m lines, boardView.loadManifest ⟨"Isebuild.toml"⟩ = .ok m ∧
    List.Forall₂ SignalEntry.Lined m.signals lines ∧
    String.join lines.flatten ++ m.commandText = boardConstraints := by
  have hrender : (boardView.loadManifest ⟨"Isebuild.toml"⟩).toOption.map
      (fun m => Ucf.render m.constraints m.platformCommands) = some boardConstraints := by
    decide +kernel
  cases hload : boardView.loadManifest ⟨"Isebuild.toml"⟩ with
  | error f =>
    rw [hload] at hrender
    cases hrender
  | ok m =>
    rw [hload] at hrender
    obtain ⟨_, _, -, -, -, lines, hlined, htext⟩ := pins_laid_out hload
    exact ⟨m, lines, rfl, hlined, htext.symm.trans (Option.some.inj hrender)⟩

end Manifest

end FpgaFlow
