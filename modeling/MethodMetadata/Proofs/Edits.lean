import MethodMetadata.ClassFile.Assembly
import MethodMetadata.Injector.Names
import MethodMetadata.Proofs.Classes

/-! Classes are edited method by method, and every edit survives being stored and read again.
Edits leave alone what a method keeps of its class file, so that it stays filed there. -/
namespace MethodMetadata

namespace Method

def withExceptions (m : Method) (names : List BinaryName) : Method :=
  { m with exceptions := names }

/-- A change to a method. Local variables can be changed on their own, or together with their
types. -/
inductive Edit
  | exceptions (names : List BinaryName)
  | locals (rows : List LocalVariable)
  | replaceLocals (rows : List LocalVariable)
  deriving DecidableEq

/-- The method after a change; without a body it has no local variables to change. -/
def Edit.apply : Edit → Method → Method
  | .exceptions names, m => m.withExceptions names
  | .locals rows, m => { m with code := m.code.map fun code => { code with locals := rows } }
  | .replaceLocals rows, m => m.replaceLocals rows

theorem Filed.withExceptions {pool : ConstantPool} {m : Method} (h : m.Filed pool)
    (names : List BinaryName) : (m.withExceptions names).Filed pool :=
  ⟨h.attributes, h.code⟩

private theorem Filed.mapCode {pool : ConstantPool} {m : Method} (h : m.Filed pool)
    {f : Code → Code} (hf : ∀ code, code.Filed pool → (f code).Filed pool) :
    Filed pool { m with code := m.code.map f } := by
  refine ⟨fun a ha => ?_, fun code hc => ?_⟩
  · rw [Option.isSome_map]
    exact h.attributes a ha
  · obtain ⟨before, hb, rfl⟩ := Option.map_eq_some_iff.mp hc
    exact hf before (h.code before hb)

theorem Filed.replaceLocals {pool : ConstantPool} {m : Method} (h : m.Filed pool)
    (rows : List LocalVariable) : (m.replaceLocals rows).Filed pool :=
  h.mapCode fun _ hc => ⟨hc.short, hc.attributes, nofun⟩

private theorem Filed.edit {pool : ConstantPool} {m : Method} (h : m.Filed pool) (e : Edit) :
    (e.apply m).Filed pool := by
  cases e with
  | exceptions names => exact h.withExceptions names
  | locals rows => exact h.mapCode fun _ hc => ⟨hc.short, hc.attributes, hc.localTypes⟩
  | replaceLocals rows => exact h.replaceLocals rows

end Method

namespace Class

/-- The class with a change to the method at a position, if there is one. -/
def editAt (c : Class) (i : Nat) (e : Method.Edit) : Class :=
  { c with methods := c.methods.modify i e.apply }

/-- The class after changes to methods, one after the other. -/
def edit (c : Class) (edits : List (Nat × Method.Edit)) : Class :=
  edits.foldl (fun c e => c.editAt e.1 e.2) c

private theorem Filed.editAt {c : Class} (h : c.Filed) (i : Nat) (e : Method.Edit) :
    (c.editAt i e).Filed := by
  refine ⟨h.name, h.superName, fun m hm => ?_⟩
  obtain ⟨j, hj, rfl⟩ := List.mem_iff_getElem.mp hm
  have hj' : j < c.methods.length := by rwa [Class.editAt, List.length_modify] at hj
  have hfiled := h.methods _ (List.getElem_mem hj')
  simp only [Class.editAt, List.getElem_modify]
  split
  · exact hfiled.edit e
  · exact hfiled

private theorem Filed.edit {c : Class} (h : c.Filed) (edits : List (Nat × Method.Edit)) :
    (c.edit edits).Filed ∧ (c.edit edits).name = c.name ∧
      (c.edit edits).superName = c.superName := by
  induction edits generalizing c with
  | nil => exact ⟨h, rfl, rfl⟩
  | cons e edits ih => exact ih (h.editAt e.1 e.2)

end Class

/-! A class whose methods differ in what they have: a constructor with attributes of every kind, a
native method, and a static method without local variables. -/

namespace Assembly

private def queueConstructor : MemberSource where
  flags := 0x0001
  name := "<init>"
  descriptor := "(JLb/Base;)V"
  code := some {
    maxStack := 1
    maxLocals := 1
    bytecode := [0x2A, 0xB1]
    handlers := [⟨0, 1, 1, some "b/Fault"⟩]
    locals := some [⟨"old", "La/Queue;", 0, 2, 0⟩]
    attributes := [⟨"LocalVariableTypeTable", [0, 0]⟩, ⟨"StackMapTable", [0, 0]⟩] }
  exceptions := some ["b/Fault"]
  attributes := [⟨"Code", [1, 2, 3]⟩, ⟨"Deprecated", []⟩]

private def queueNative : MemberSource where
  flags := 0x0109
  name := "func_7_a"
  descriptor := "(ID)V"
  code := none
  exceptions := none
  attributes := []

private def queueStatic : MemberSource where
  flags := 0x0008
  name := "run"
  descriptor := "([I)V"
  code := some ⟨0, 1, [0xB1], [], none, []⟩
  exceptions := none
  attributes := []

def queueSource : ClassSource where
  version := .release8
  flags := 0x0021
  thisName := "a/Queue"
  superName := some "b/Base"
  interfaces := []
  fields := []
  methods := [queueConstructor, queueNative, queueStatic]
  attributes := [⟨"SourceFile", [0, 1]⟩]
  strings := []

def queueBytes : List UInt8 :=
  (assemble queueSource).toOption.getD []

end Assembly

namespace Class

/-- An edited class is read again with all its edits. Only the slots that its bodies reserve may
differ: they are as many as before, and enough for every local variable. -/
theorem parse_serialize_edit {bytes made : List UInt8} {c : Class}
    {edits : List (Nat × Method.Edit)} (h : Class.parse bytes = .ok c)
    (hf : (c.edit edits).BodiesFit) (hs : (c.edit edits).serialize = .ok made) :
    ∃ again, Class.parse made = .ok again ∧ again.name = c.name ∧ again.superName = c.superName ∧
      again.methods = (c.edit edits).methods.map Method.raised ∧
      ∀ m ∈ (c.edit edits).methods, ∀ code ∈ m.code, code.raised.maxLocals.toNat =
        (code.locals.map LocalVariable.reach).foldr max code.maxLocals.toNat := by
  obtain ⟨hfiled, hname, hsuper⟩ := (filed_of_parse h).edit edits
  obtain ⟨_, -, -, -, hparse, -⟩ := parse_serialize hfiled hf hs
  exact ⟨_, hparse, hname, hsuper, rfl, fun _ _ code _ => code.raised_maxLocals⟩

/-- Edits of each kind, with texts that are no names and slots that are taken twice. -/
def queueEdits : List (Nat × Method.Edit) :=
  [(0, .exceptions []), (0, .locals [⟨"a\u0000😀", "J", 0, 2, 65534⟩, ⟨"", "[", 1, 2, 3⟩]),
    (1, .exceptions [.object, .object]), (2, .replaceLocals [⟨"par0", "D", 0, 1, 1⟩])]

theorem parse_serialize_edit_queue : ∃ c made again, Class.parse Assembly.queueBytes = .ok c ∧
    (c.edit queueEdits).BodiesFit ∧ (c.edit queueEdits).serialize = .ok made ∧
    Class.parse made = .ok again ∧
    again.methods = (c.edit queueEdits).methods.map Method.raised := by
  have hs : (Class.parse Assembly.queueBytes).toOption.isSome := by decide +kernel
  obtain ⟨c, hc⟩ := isSome_toOption_iff.mp hs
  have he : ∀ c ∈ (Class.parse Assembly.queueBytes).toOption, (c.edit queueEdits).BodiesFit ∧
      (c.edit queueEdits).serialize.toOption.isSome := by decide +kernel
  obtain ⟨hf, hmade⟩ := he c (toOption_eq_some_iff.mpr hc)
  obtain ⟨made, hmade⟩ := isSome_toOption_iff.mp hmade
  obtain ⟨again, ha, -, -, hm, -⟩ := parse_serialize_edit hc hf hmade
  exact ⟨c, made, again, hc, hf, hmade, ha, hm⟩

end Class

end MethodMetadata
