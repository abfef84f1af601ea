import FpgaFlow.Proofs.Text.Lines
import FpgaFlow.Proofs.Text.Occurrence
import FpgaFlow.Ucf

/-!
# Reading a constraint file back

Every line of a constraint file binds a net to a pin.  `readLine?` looks for both: the
net stands between the first two quotes of a line, and the pin behind the first `LOC=`
after them, up to a blank or a semicolon.  The other clauses and the comment stand
behind the pin (`line_eq`), so that nothing in them is looked at.

**Main statement** `bindings_read_back`: the bindings of a list of signals can be read
back from their constraint file, whatever their attributes and resources are.  So the
file shows which bindings the signals have, and in which order.
-/

namespace FpgaFlow

namespace Attribute

/-- The texts of an attribute that its clause shows. -/
def shown : Attribute → List String
  | location pin => [pin]
  | ioStandard standard => [standard]
  | misc clause => [clause]
  | _ => []

end Attribute

namespace SignalConstraint

/-- The net of a pin: the signal itself if there is no other pin, and else one bit of it. -/
def netName (c : SignalConstraint) (k : Nat) : String :=
  if c.isVector then Ucf.bitName c.signal k else c.signal

/-- The nets of a signal, each with its pin. -/
def bindings (c : SignalConstraint) : List (String × String) :=
  c.pins.mapIdx fun k pin => (c.netName k, pin)

/-- Nothing in a signal is a separator in the place where it is written. -/
structure Readable (c : SignalConstraint) : Prop where
  signal : ∀ x ∈ ['"', '\n'], x ∉ c.signal.toList
  pins : ∀ pin ∈ c.pins, ∀ x ∈ [' ', ';', '\n'], x ∉ pin.toList
  attributes : ∀ a ∈ c.attributes, ∀ s ∈ a.shown, '\n' ∉ s.toList
  kind : '\n' ∉ c.resource.kind.toList
  subsignal : ∀ s ∈ c.resource.subsignal, '\n' ∉ s.toList

end SignalConstraint

namespace Ucf

theorem nets_eq (c : SignalConstraint) : nets c = c.bindings := by
  rw [nets, SignalConstraint.bindings]
  split
  next pin hpins =>
    have hscalar : c.isVector = false := by simp [SignalConstraint.isVector, hpins]
    simp [hpins, SignalConstraint.netName, hscalar]
  next hpins =>
    cases h : c.pins with
    | nil => rfl
    | cons pin pins =>
      cases pins with
      | nil => exact absurd h (hpins pin)
      | cons pin' pins =>
        have hvector : c.isVector = true := by simp [SignalConstraint.isVector, h]
        simp [SignalConstraint.netName, hvector]

/-! ### The reader -/

/-- The net and the pin that a line binds. -/
def readLine? (line : List Char) : Option (String × String) := do
  let (_, rest) ← Text.cutAt ['"'] line
  let (net, rest) ← Text.cutAt ['"'] rest
  let (_, rest) ← Text.cutAt "LOC=".toList rest
  return (String.ofList net, String.ofList (rest.takeWhile fun x => x != ' ' && x != ';'))

/-- What the lines of a constraint file bind, one after the other. -/
def readBindings (text : String) : List (Option (String × String)) :=
  (Text.lines text).map readLine?

/-! ### One line -/

/-- What stands behind the pin of a line. -/
def behindPin (attributes : List Attribute) (resource : Resource) : String :=
  String.join ((attributes.filterMap clause?).map fun clause => " | " ++ clause) ++ "; # " ++
    resource.name

/-- The line of a binding, without its end. -/
def bindingText (attributes : List Attribute) (resource : Resource) (binding : String × String) :
    String :=
  "NET \"" ++ binding.1 ++ "\" LOC=" ++ binding.2 ++ behindPin attributes resource

/-- The parts of a line. -/
theorem line_eq (net pin : String) (attributes : List Attribute) (resource : Resource) :
    line net pin attributes resource = bindingText attributes resource (net, pin) ++ "\n" := by
  have hquote : "\" LOC=" = "\" " ++ "LOC=" := rfl
  rw [line, clauses, Text.intercalate_cons, bindingText, behindPin, hquote]
  simp only [String.append_assoc]

/-- A blank or a semicolon ends the pin. -/
theorem behindPin_eq_cons (attributes : List Attribute) (resource : Resource) :
    ∃ x xs, (behindPin attributes resource).toList = x :: xs ∧ (x = ' ' ∨ x = ';') := by
  rw [behindPin]
  cases attributes.filterMap clause? with
  | nil => exact ⟨';', ' ' :: '#' :: ' ' :: resource.name.toList, by simp, .inr rfl⟩
  | cons clause clauses =>
    rw [List.map_cons, String.join_cons]
    simp only [String.append_assoc, String.toList_append]
    exact ⟨' ', _, rfl, .inl rfl⟩

/-- **The net and the pin of a line can be read back.** -/
theorem readLine?_bindingText {net pin : String} (hnet : '"' ∉ net.toList)
    (hpin : ∀ x ∈ [' ', ';'], x ∉ pin.toList) (attributes : List Attribute)
    (resource : Resource) :
    readLine? (bindingText attributes resource (net, pin)).toList = some (net, pin) := by
  obtain ⟨x, xs, hbehind, hx⟩ := behindPin_eq_cons attributes resource
  have hline : (bindingText attributes resource (net, pin)).toList =
      "NET ".toList ++ '"' :: (net.toList ++
        '"' :: (" LOC=".toList ++ (pin.toList ++ x :: xs))) := by
    simp [bindingText, hbehind]
  have hplace : Text.cutAt "LOC=".toList (" LOC=".toList ++ (pin.toList ++ x :: xs)) =
      some ([' '], pin.toList ++ x :: xs) := rfl
  have hinside : ∀ y ∈ pin.toList, (y != ' ' && y != ';') = true := by
    intro y hy
    have hblank : y ≠ ' ' := fun h => hpin ' ' (by simp) (h ▸ hy)
    have hsemicolon : y ≠ ';' := fun h => hpin ';' (by simp) (h ▸ hy)
    simp [hblank, hsemicolon]
  have hend : (x != ' ' && x != ';') = false := by
    rcases hx with rfl | rfl
    · rfl
    · rfl
  have htake : (pin.toList ++ x :: xs).takeWhile (fun y => y != ' ' && y != ';') = pin.toList := by
    rw [List.takeWhile_append_of_pos hinside, List.takeWhile_cons_of_neg (by simp [hend]),
      List.append_nil]
  have hnet' := Text.cutAt_single (t := " LOC=".toList ++ (pin.toList ++ x :: xs)) hnet
  have hfront : '"' ∉ "NET ".toList := by decide
  simp only [hline, readLine?, Text.cutAt_single hfront, hnet', hplace, htake, Option.bind_eq_bind,
    Option.bind_some, Option.pure_def, String.ofList_toList]

/-! ### The whole file -/

section

variable {c : SignalConstraint} {signals : List SignalConstraint}

theorem notMem_bitName {x : Char} {signal : String} (hdigit : x.isDigit = false)
    (hx : x ∉ ['(', ')']) (h : x ∉ signal.toList) (k : Nat) : x ∉ (bitName signal k).toList := by
  have hnumber := Text.notMem_toString hdigit k
  rw [List.mem_cons, List.mem_singleton, not_or] at hx
  rw [bitName]
  simp only [String.toList_append, List.mem_append, not_or]
  exact ⟨⟨⟨h, by simpa using hx.1⟩, hnumber⟩, by simpa using hx.2⟩

/-- The nets of a signal have no character that the signal does not have, but for digits and
parentheses. -/
theorem notMem_netName {x : Char} (hdigit : x.isDigit = false) (hx : x ∉ ['(', ')'])
    (h : x ∉ c.signal.toList) (k : Nat) : x ∉ (c.netName k).toList := by
  rw [SignalConstraint.netName]
  split
  · exact notMem_bitName hdigit hx h k
  · exact h

theorem newline_notMem_clause {a : Attribute} {clause : String}
    (h : ∀ s ∈ a.shown, '\n' ∉ s.toList) (hclause : clause? a = some clause) :
    '\n' ∉ clause.toList := by
  cases a with
  | location pin =>
    obtain rfl := Option.some.inj hclause
    exact newline_notMem_append (by decide) (h pin (by simp [Attribute.shown]))
  | ioStandard standard =>
    obtain rfl := Option.some.inj hclause
    exact newline_notMem_append (by decide) (h standard (by simp [Attribute.shown]))
  | drive strength =>
    obtain rfl := Option.some.inj hclause
    exact newline_notMem_append (by decide) (Text.notMem_toString (by decide) _)
  | misc text =>
    obtain rfl := Option.some.inj hclause
    exact h text (by simp [Attribute.shown])
  | other kind value => cases hclause

theorem newline_notMem_resource (h : c.Readable) : '\n' ∉ c.resource.name.toList := by
  rw [Resource.name]
  refine newline_notMem_append (newline_notMem_append (newline_notMem_append h.kind (by decide))
    (Text.notMem_toString (by decide) _)) ?_
  cases hsub : c.resource.subsignal with
  | none => decide
  | some sub => exact newline_notMem_append (by decide) (h.subsignal sub hsub)

theorem newline_notMem_behindPin (h : c.Readable) :
    '\n' ∉ (behindPin c.attributes c.resource).toList := by
  rw [behindPin]
  refine newline_notMem_append (newline_notMem_append ?_ (by decide)) (newline_notMem_resource h)
  rw [String.toList_join, List.mem_flatMap]
  rintro ⟨written, hwritten, hmem⟩
  obtain ⟨clause, hclause, rfl⟩ := List.mem_map.1 hwritten
  obtain ⟨a, ha, hshown⟩ := List.mem_filterMap.1 hclause
  exact newline_notMem_append (by decide) (newline_notMem_clause (h.attributes a ha) hshown) hmem

/-- A binding names a net of the signal and one of its pins. -/
theorem exists_of_mem_bindings {b : String × String} (hb : b ∈ c.bindings) :
    ∃ k, b.1 = c.netName k ∧ b.2 ∈ c.pins := by
  obtain ⟨k, hk, rfl⟩ := List.mem_mapIdx.1 hb
  exact ⟨k, rfl, List.getElem_mem hk⟩

theorem newline_notMem_bindingText (h : c.Readable) {b : String × String} (hb : b ∈ c.bindings) :
    '\n' ∉ (bindingText c.attributes c.resource b).toList := by
  obtain ⟨k, hnet, hpin⟩ := exists_of_mem_bindings hb
  have hsignal : '\n' ∉ c.signal.toList := h.signal '\n' (by simp)
  rw [bindingText, hnet]
  refine newline_notMem_append (newline_notMem_append (newline_notMem_append
    (newline_notMem_append (by decide) ?_) (by decide)) ?_) (newline_notMem_behindPin h)
  · exact notMem_netName (by decide) (by decide) hsignal k
  · exact h.pins b.2 hpin '\n' (by simp)

theorem render_cons (c : SignalConstraint) (signals : List SignalConstraint) :
    render (c :: signals) [] =
      String.join (c.bindings.map fun b => line b.1 b.2 c.attributes c.resource) ++
        render signals [] := by
  rw [render, render, List.flatMap_cons, String.join_append, signalLines, nets_eq,
    String.append_assoc]

/-- The lines of a constraint file are those of the bindings. -/
theorem lines_render (h : ∀ c ∈ signals, c.Readable) :
    Text.lines (render signals []) = signals.flatMap fun c =>
      c.bindings.map fun b => (bindingText c.attributes c.resource b).toList := by
  induction signals with
  | nil => rfl
  | cons c signals ih =>
    have hc : c.Readable := h c List.mem_cons_self
    have hrest : ∀ c' ∈ signals, c'.Readable := fun c' hc' => h c' (List.mem_cons_of_mem c hc')
    have hwritten : ∀ b : String × String, line b.1 b.2 c.attributes c.resource =
        bindingText c.attributes c.resource b ++ "\n" :=
      fun b => line_eq b.1 b.2 c.attributes c.resource
    have hbreak : ∀ b ∈ c.bindings, '\n' ∉ (bindingText c.attributes c.resource b).toList := by
      intro b hb
      exact newline_notMem_bindingText hc hb
    rw [render_cons, Text.lines_join hwritten hbreak, ih hrest, List.flatMap_cons]

/-- The bindings are what the lines bind. -/
theorem readBindings_render (h : ∀ c ∈ signals, c.Readable) :
    readBindings (render signals []) = (signals.flatMap SignalConstraint.bindings).map some := by
  rw [readBindings, lines_render h, List.map_flatMap, List.map_flatMap]
  refine List.flatMap_congr fun c hc => ?_
  rw [List.map_map]
  refine List.map_congr_left fun b hb => ?_
  obtain ⟨k, hnet, hpin⟩ := exists_of_mem_bindings hb
  have hquote : '"' ∉ b.1.toList := by
    rw [hnet]
    exact notMem_netName (by decide) (by decide) ((h c hc).signal '"' (by simp)) k
  have hends : ∀ x ∈ [' ', ';'], x ∉ b.2.toList := by
    intro x hx
    exact (h c hc).pins b.2 hpin x (List.mem_append_left ['\n'] hx)
  exact readLine?_bindingText hquote hends c.attributes c.resource

/-- **Constraint files can be read back.** One reader gives the bindings of all signals, one per pin
and in their order, whatever their attributes and resources are.  So the files of signals with other
bindings, or with the same ones in another order, are different. -/
theorem bindings_read_back (h : ∀ c ∈ signals, c.Readable) :
    readBindings (render signals []) = (signals.flatMap SignalConstraint.bindings).map some ∧
      ∀ signals', (∀ c ∈ signals', c.Readable) →
        signals.flatMap SignalConstraint.bindings ≠ signals'.flatMap SignalConstraint.bindings →
        render signals [] ≠ render signals' [] := by
  refine ⟨readBindings_render h, fun signals' h' hne heq => hne ?_⟩
  have hread : (signals.flatMap SignalConstraint.bindings).map some =
      (signals'.flatMap SignalConstraint.bindings).map some := by
    rw [← readBindings_render h, ← readBindings_render h', heq]
  exact List.map_injective_iff.2 (fun _ _ => Option.some.inj) hread

/-- Signals whose names, pins and attributes look like parts of a line. -/
def odd : List SignalConstraint :=
  [⟨"a LOC=b;", ["LOC=A1", ""], [.misc "NET \"x\" LOC=Z9; #", .other "q" "\n", .drive 8],
      ⟨"bank \"0\"", 3, some "tx;"⟩⟩,
    ⟨"none", [], [.misc "PULLUP"], ⟨"none", 0, none⟩⟩,
    ⟨"a(0)", ["\"C3\""], [.location "D4 E5"], ⟨"a", 0, none⟩⟩]

theorem readable_odd : ∀ c ∈ odd, c.Readable := by
  simp only [odd, List.forall_mem_cons]
  refine ⟨?_, ?_, ?_, by simp⟩
  · exact ⟨by simp, by simp, by decide, by decide, by decide⟩
  · exact ⟨by simp, by simp, by decide, by decide, by decide⟩
  · exact ⟨by simp, by simp, by decide, by decide, by decide⟩

theorem odd_read_back : (∀ c ∈ odd, c.Readable) ∧
    readBindings (render odd []) = [some ("a LOC=b;(0)", "LOC=A1"), some ("a LOC=b;(1)", ""),
      some ("a(0)", "\"C3\"")] ∧
    render odd [] ≠ render odd.reverse [] := by
  obtain ⟨hread, hother⟩ := bindings_read_back readable_odd
  refine ⟨readable_odd, hread, hother odd.reverse ?_ (by decide)⟩
  intro c hc
  exact readable_odd c (List.mem_reverse.1 hc)

end

end Ucf

end FpgaFlow
