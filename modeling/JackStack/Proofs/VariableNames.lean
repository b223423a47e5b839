import JackStack.Proofs.Code.Renaming
import JackStack.Proofs.Independence

/-!
# Names of variables do not matter

A variable of a class that compiles can be given any other name that is not in use. The source with
the new name where the variable is declared and used compiles to the same bytes.
-/

namespace JackStack

open JackStack.Tree

/-- A name of its own that is no reserved word can be given to a variable. -/
theorem admits_of_bare {bytes : ByteArray} {c : Tree.Class} (h : ScansTo bytes c.tokens)
    {fresh : String} (hbare : (Token.identifier fresh).Bare)
    (hunused : .identifier fresh ∉ c.tokens) : c.Admits bytes.size fresh where
  plain _ ht := h.plain ht
  ne_this := (hbare.2 .thisKw).symm
  unused := hunused

/-- The output of a success is the text of what was emitted. -/
theorem compileBytes_output {bytes : ByteArray} {options : Options}
    (h : (compileBytes bytes options).verdict = .ok ()) :
    (compileBytes bytes options).output = (codeText options.indent (emitted bytes)).toUTF8 :=
  compile_output h

/-- Classes with the same code are compiled to the same bytes. -/
theorem compileBytes_output_eq {bytes bytes' : ByteArray} {c c' : Tree.Class} {options : Options}
    (h : ScansTo bytes c.tokens) (h' : ScansTo bytes' c'.tokens)
    (hemits : ∀ {code}, c.Emits code → c'.Emits code)
    (hok : (compileBytes bytes options).verdict = .ok ()) :
    (compileBytes bytes' options).verdict = .ok () ∧
      (compileBytes bytes' options).output = (compileBytes bytes options).output := by
  have hcode := hemits ((compileBytes_verdict_iff h options).mp hok)
  have hemitted := emitted_eq h' hcode
  have hok' : (compileBytes bytes' options).verdict = .ok () := by
    rwa [compileBytes_verdict_iff h' options, hemitted]
  refine ⟨hok', ?_⟩
  rw [compileBytes_output hok', compileBytes_output hok, hemitted]

/-- Names of variables do not matter. A source that compiles is a class; whatever variable of it is
given whatever new name, the name can be put into the source where the variable stands, and every
source of the renamed class is compiled to the same bytes. -/
theorem variable_names_irrelevant {bytes : ByteArray} {options : Options}
    (h : (compileBytes bytes options).verdict = .ok ()) :
    ∃ c : Tree.Class, ScansTo bytes c.tokens ∧ ∀ b, c.Binds b → ∀ fresh,
      (Token.identifier fresh).Bare → .identifier fresh ∉ c.tokens →
      (∃ bytes', Respelling b.name fresh bytes bytes' ∧ ScansTo bytes' (c.rename fresh b).tokens) ∧
      ∀ bytes', ScansTo bytes' (c.rename fresh b).tokens →
        (compileBytes bytes' options).verdict = .ok () ∧
          (compileBytes bytes' options).output = (compileBytes bytes options).output := by
  obtain ⟨xs, r, hparse⟩ := Run.exists_parse_of_verdict (Run.verdict_of_deliverFrom h)
  obtain ⟨c, lexemes, houtcomes, htokens, -⟩ := Syntax.tokens_of_parse hparse
  have hscans : ScansTo bytes c.tokens := ⟨lexemes, htokens, houtcomes⟩
  refine ⟨c, hscans, fun b hb fresh hbare hunused => ⟨?_, fun bytes' hscans' => ?_⟩⟩
  · exact hscans.exists_respelling hbare (c.respells fresh b)
  · have hadmits := admits_of_bare hscans hbare hunused
    exact compileBytes_output_eq hscans hscans' (fun hcode => hcode.rename hadmits hb) h

/-- A class with a field whose name is also that of a method and that of a parameter. -/
def box : Tree.Class where
  name := "Box"
  groups := [⟨.field, ⟨.named "Box", "item", []⟩⟩]
  subroutines :=
    [⟨.method, some (.named "Box"), "item", [], [],
      [.assignElement "item" (.chain (.integer 0) []) (.chain (.var "item") []),
      .giveBack (some (.chain (.call (.mk (some "item") "item" [])) []))]⟩,
    ⟨.method, none, "put", [⟨.named "Box", "item"⟩], [],
      [.perform (.mk (some "item") "put" [.chain (.var "item") []]), .giveBack none]⟩]

/-- The class as it is written. -/
def boxText : String :=
  "class Box \x7b
    field Box item;
    method Box item() \x7b let item[0] = item; return item.item(); \x7d // the item
    method void put(Box item) \x7b do item.put(item); return; \x7d
  \x7d"

/-- The class with another name for its field. -/
def boxHeldText : String :=
  "class Box \x7b
    field Box held_1;
    method Box item() \x7b let held_1[0] = held_1; return held_1.item(); \x7d // the item
    method void put(Box item) \x7b do item.put(item); return; \x7d
  \x7d"

theorem boxText_scans : ScansTo boxText.toUTF8 box.tokens := .of_outcomes (by decide +kernel)

theorem boxHeldText_scans :
    ScansTo boxHeldText.toUTF8 (box.rename "held_1" (.shared "item")).tokens :=
  .of_outcomes (by decide +kernel)

theorem boxText_compiled : (compileBytes boxText.toUTF8 {}).verdict = .ok () := by
  have hwf : box.WellFormed := by decide +kernel
  have hsize : boxText.toUTF8.size < UInt32.size := by decide +kernel
  obtain ⟨hverdict, -⟩ := (Run.ofReadings_of_scansTo boxText_scans hsize).mpr ⟨hwf, rfl⟩
  obtain ⟨notes, hdeliver⟩ := Run.deliver_of_accepts hverdict (Sink.accepts_default _)
  rw [compileBytes, compile, hdeliver]

/-- The name of the field is replaced where it is the field, not where it is the method or the
parameter. -/
theorem boxText_item_held :
    (compileBytes boxText.toUTF8 {}).verdict = .ok () ∧ ScansTo boxText.toUTF8 box.tokens ∧
      box.Binds (.shared "item") ∧ (Token.identifier "held_1").Bare ∧
      .identifier "held_1" ∉ box.tokens ∧
      (∃ bytes', Respelling "item" "held_1" boxText.toUTF8 bytes' ∧
        ScansTo bytes' (box.rename "held_1" (.shared "item")).tokens) ∧
      ScansTo boxHeldText.toUTF8 (box.rename "held_1" (.shared "item")).tokens ∧
      (compileBytes boxHeldText.toUTF8 {}).output = (compileBytes boxText.toUTF8 {}).output := by
  obtain ⟨c, hscans, hnames⟩ := variable_names_irrelevant boxText_compiled
  obtain rfl : c = box := Class.tokens_injective (hscans.unique boxText_scans)
  have hbinds : box.Binds (.shared "item") := List.mem_singleton_self _
  have hbare : (Token.identifier "held_1").Bare :=
    ⟨⟨⟨104, _, rfl, by decide, by decide +kernel⟩, nofun⟩, fun k => by cases k <;> decide⟩
  have hunused : .identifier "held_1" ∉ box.tokens := by decide +kernel
  obtain ⟨hrespelling, hsame⟩ := hnames (.shared "item") hbinds "held_1" hbare hunused
  exact ⟨boxText_compiled, boxText_scans, hbinds, hbare, hunused, hrespelling, boxHeldText_scans,
    (hsame _ boxHeldText_scans).2⟩

end JackStack
