import MethodMetadata.Proofs.ExactDescriptors
import MethodMetadata.Proofs.Injection
import MethodMetadata.Proofs.PoolNumbers

/-! Tables of arguments, which have no more rows than can be counted and are live in all of the
bytecode. A class file is too small for a method whose slots or labels would not fit. -/
namespace MethodMetadata

open Interning

private theorem MethodDescriptor.length_parameters_le {text : String} {d : MethodDescriptor}
    (h : ofText text = .ok d) : d.parameters.length + 3 ≤ text.toList.length := by
  have hresult : 1 ≤ (Descriptor.renderResult d.result).length := by
    cases d.result with
    | none => exact Nat.le_refl 1
    | some type =>
      obtain ⟨c, tail, htext, -⟩ := Descriptor.renderField_cons type
      rw [Descriptor.renderResult, htext, List.length_cons]
      omega
  have hparameters := Descriptor.length_le_flatMap_renderField d.parameters
  rw [← ofText_eq_ok_iff_render.mp h, render, String.toList_ofList, Descriptor.renderMethod,
    List.length_cons, List.length_append, List.length_cons]
  omega

private theorem Code.endLabel_toNat {code : Code} (h : code.bytecode.length ≤ 65535) :
    code.endLabel.toNat = code.bytecode.length :=
  UInt16.toNat_ofNat'.trans (Nat.mod_eq_of_lt (by omega))

private theorem LocalVariable.failsFull_toEntry {v : LocalVariable} (h : v.start ≤ v.stop) :
    FailsFull v.toEntry := by
  rw [toEntry, if_pos h]
  exact (ConstantPool.failsFull_internText v.name).bind fun _ _ _ _ =>
    (ConstantPool.failsFull_internText v.descriptor).bind fun _ _ _ _ => .pure _

namespace Code

private theorem failsFull_internLocals {rows : List LocalVariable} (hcount : rows.length < 65536)
    (hranges : ∀ v ∈ rows, v.start ≤ v.stop) : FailsFull (internLocals rows) := by
  have hentries : FailsFull (rows.mapM LocalVariable.toEntry) :=
    .mapM fun v hv => LocalVariable.failsFull_toEntry (hranges v hv)
  refine hentries.bind fun pool entries grown hr => ?_
  obtain ⟨-, hsettled⟩ := Settles.mapM (fun v _ => LocalVariable.settles_toEntry v) hr
  have hlength : entries.length < 65536 := (hsettled (.refl grown)).2.length_eq ▸ hcount
  have hwrite : ∃ bytes, LocalEntry.tableFormat.write entries = .ok bytes :=
    Format.exists_counted_write hlength fun _ _ => ⟨_, rfl⟩
  split
  · exact .pure []
  · exact (ConstantPool.failsFull_internAttribute _ hwrite).bind fun _ _ _ _ => .pure _

private theorem count_of_holdsLocals {pool : ConstantPool} {rows : List LocalVariable}
    {table : List Attribute} (h : HoldsLocals pool rows table) :
    ∀ attr ∈ table, ofBigEndian (attr.info.take 2) = rows.length := by
  intro attr hattr
  cases h with
  | none => cases hattr
  | one some related named written read =>
    obtain rfl := List.mem_singleton.mp hattr
    obtain ⟨hcount, parts, -, hinfo⟩ := Format.counted_write_eq_ok written
    rw [hinfo, List.take_left' (length_toBigEndian 2 _), ofBigEndian_toBigEndian,
      related.length_eq]
    exact Nat.mod_eq_of_lt hcount

end Code

namespace Method

/-- Rows in slots of their own, from the first one on, which are live in the whole body. There are
few enough to be counted, so that storing them fails only where there is no room for their texts. -/
structure ExactTable (m : Method) (rows : List LocalVariable) : Prop where
  count : rows.length ≤ 65533
  slots : rows.map (·.slot.toNat) = List.range rows.length
  distinct : (rows.map (·.slot)).Nodup
  ranges : ∀ v ∈ rows, v.start ≤ v.stop ∧ v.start = 0 ∧
    v.stop.toNat = (m.code.map (·.bytecode.length)).getD 0
  stored : ∀ pool table grown, (Code.internLocals rows).run.run pool = (.ok table, grown) →
    ∀ attr ∈ table, ofBigEndian (attr.info.take 2) = rows.length
  refused : ∀ pool e grown, (Code.internLocals rows).run.run pool = (.error e, grown) →
    grown.NoRoom e

private theorem exactTable_argumentTable {m : Method}
    (hshort : ∀ code ∈ m.code, code.bytecode.length ≤ 65535) {names types : List String}
    (hl : names.length = types.length) (hcount : types.length ≤ 65533) :
    m.ExactTable (m.argumentTable names types) := by
  obtain ⟨hnames, -, hslots, hranges⟩ := Injector.argumentTable_columns hshort hl (by omega)
  have hlength : (m.argumentTable names types).length = types.length := by
    rw [← hl, ← congrArg List.length hnames, List.length_map]
  have hrows : ∀ v ∈ m.argumentTable names types, v.start ≤ v.stop := by
    intro v hv
    rw [(hranges v hv).1]
    exact UInt16.zero_le
  have hdistinct : ((m.argumentTable names types).map (·.slot)).Nodup := by
    have hrange : (((m.argumentTable names types).map (·.slot)).map UInt16.toNat).Nodup := by
      rw [List.map_map]
      exact hslots.symm ▸ List.nodup_range
    exact List.Pairwise.of_map _ (fun _ _ hne he => hne (congrArg UInt16.toNat he)) hrange
  refine ⟨by omega, hslots, hdistinct, fun v hv => ⟨hrows v hv, hranges v hv⟩,
    fun pool table grown h => ?_, fun pool e grown h => ?_⟩
  · obtain ⟨-, hsettled⟩ := Code.settles_internLocals _ h
    exact Code.count_of_holdsLocals (hsettled (.refl grown)).2
  · exact Code.failsFull_internLocals (by omega) hrows h

end Method

private theorem Class.length_descriptor_le {bytes : List UInt8} {c : Class}
    (h : Class.parse bytes = .ok c) : ∀ m ∈ c.methods, m.descriptor.toList.length ≤ 65535 := by
  obtain ⟨file, hfile, hof⟩ := parse_eq_ok_iff.mp h
  obtain ⟨-, -, hmethods, -⟩ := ofClassFile_eq_ok_iff.mp hof
  intro m hm
  obtain ⟨stored, -, hstored⟩ := exists_of_mem_right hmethods hm
  obtain ⟨_, -, -, hdescriptor, -⟩ := Method.ofMember_eq_ok_iff.mp hstored
  exact ClassFile.length_le_of_text hfile hdescriptor

/-- A method of a class that was read has few enough arguments for two bytes. -/
theorem Class.argumentCount_le {bytes : List UInt8} {c : Class} (h : Class.parse bytes = .ok c)
    {m : Method} (hm : m ∈ c.methods) {d : MethodDescriptor}
    (hd : MethodDescriptor.ofText m.descriptor = .ok d) :
    d.parameters.length + m.receiverCount ≤ 65533 := by
  have htext := Class.length_descriptor_le h m hm
  have hparameters := MethodDescriptor.length_parameters_le hd
  have hreceiver : m.receiverCount ≤ 1 := by
    unfold Method.receiverCount
    split <;> omega
  omega

namespace Injector

/-- Whatever class is read, and whatever names its arguments are to get, no number is cut off where
it is written in two bytes: the slots of arguments, the labels of the bytecode, and the indices of
pools, also where those are read or have no room left. -/
theorem argument_tables_exact {bytes : List UInt8} {c : Class} (h : Class.parse bytes = .ok c) :
    (∀ m ∈ c.methods,
      (∀ d, MethodDescriptor.ofText m.descriptor = .ok d →
        d.parameters.length + m.receiverCount ≤ 65533) ∧
      (∀ code ∈ m.code, code.bytecode.length ≤ 65535 ∧
        code.endLabel.toNat = code.bytecode.length) ∧
      ∀ (inj : Injector) names mapped text inj' m',
        (inj.resolveParameters c.name (m.withExceptions names) mapped).result = .ok text →
        (inj.resolveParameters c.name (m.withExceptions names) mapped).state = (inj', m') →
        ∃ d, MethodDescriptor.ofText m.descriptor = .ok d ∧
          let rows := (inj.parameterNames c.name m d.parameters.length mapped).1.map
            (argumentRows c.name m d)
          named (m.withExceptions names) rows = m' ∧ ∀ table ∈ rows, m.ExactTable table) ∧
    (∀ pool : ConstantPool, pool.ExactNumbers) ∧
    ∀ bytes overflow, ConstantPool.format.read bytes = .error (.poolOverflow overflow) →
      ∃ pool, ConstantPool.OverflowsAt (bytes.drop 2) pool overflow := by
  refine ⟨fun m hm => ?_, ConstantPool.exactNumbers, fun _ _ => ConstantPool.overflowsAt_of_read⟩
  have hshort : ∀ code ∈ m.code, code.bytecode.length ≤ 65535 := fun code hcode =>
    (((Class.filed_of_parse h).methods m hm).code code hcode).short
  refine ⟨fun d => Class.argumentCount_le h hm,
    fun code hcode => ⟨hshort code hcode, Code.endLabel_toNat (hshort code hcode)⟩,
    fun inj names mapped text inj' m' hr hs => ?_⟩
  obtain ⟨d, hd, hcounted, -, -, hnamed⟩ := resolveParameters_eq_ok_iff.mp ⟨hr, hs⟩
  refine ⟨d, hd, hnamed, fun table htable => ?_⟩
  obtain ⟨parameters, hp, rfl⟩ := Option.map_eq_some_iff.mp htable
  have hcount : (m.argumentTypes c.name d).length ≤ 65533 := by
    rw [Method.length_argumentTypes]
    exact Class.argumentCount_le h hm hd
  exact Method.exactTable_argumentTable hshort (hcounted parameters hp) hcount

/-- The constructor of the class gets rows for itself and its two parameters. -/
theorem argument_tables_exact_queue : ∃ c m text inj' m', Class.parse Assembly.queueBytes = .ok c ∧
    m ∈ c.methods ∧
    ((new queueSettings queueMappings).resolveParameters c.name (m.withExceptions [])
      (some "count,base")).result = .ok text ∧
    ((new queueSettings queueMappings).resolveParameters c.name (m.withExceptions [])
      (some "count,base")).state = (inj', m') ∧
    m'.locals.length = 3 ∧ m.ExactTable m'.locals := by
  have hs : (Class.parse Assembly.queueBytes).toOption.isSome := by decide +kernel
  obtain ⟨c, hc⟩ := isSome_toOption_iff.mp hs
  have he : ∀ c ∈ (Class.parse Assembly.queueBytes).toOption, c.methods.head?.any fun m =>
      let outcome := (new queueSettings queueMappings).resolveParameters c.name
        (m.withExceptions []) (some "count,base")
      outcome.result.toOption.isSome ∧ m.code.isSome ∧ outcome.state.2.locals.length = 3 := by
    decide +kernel
  obtain ⟨m, hm, hrun⟩ := (Option.any_eq_true _ _).mp (he c (toOption_eq_some_iff.mpr hc))
  obtain ⟨hok, hcode, hlength⟩ := of_decide_eq_true hrun
  obtain ⟨text, hr⟩ := isSome_toOption_iff.mp hok
  have hmem := List.mem_of_mem_head? hm
  obtain ⟨-, -, htables⟩ := (argument_tables_exact hc).1 m hmem
  obtain ⟨d, -, hnamed, htable⟩ := htables _ _ _ _ _ _ hr rfl
  refine ⟨c, m, text, _, _, hc, hmem, hr, rfl, hlength, ?_⟩
  obtain ⟨code, hcode⟩ := Option.isSome_iff_exists.mp hcode
  rw [← hnamed]
  refine htable _ ?_
  simp [parameterNames, named, Method.replaceLocals, Method.locals, Method.withExceptions,
    Code.replaceLocals, hcode]

end Injector

end MethodMetadata
