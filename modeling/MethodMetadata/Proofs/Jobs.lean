import MethodMetadata.Proofs.Injection

/-! A job on classes is one pass over the methods of all of them. -/
namespace MethodMetadata.Injector

/-- A method and the class that it belongs to. -/
structure OwnedMethod where
  owner : BinaryName
  method : Method
  deriving DecidableEq

def processOwned (inj : Injector) (item : OwnedMethod) : Outcome Injector InjectionError Method :=
  processMethod item.owner inj item.method

def ownedMethods (c : Class) : List OwnedMethod :=
  c.methods.map (OwnedMethod.mk c.name)

/-- The methods of classes in the order in which they are processed. -/
def methodsIn (classes : List (List UInt8)) : List OwnedMethod :=
  classes.flatMap fun bytes => (Class.parse bytes).toOption.toList.flatMap ownedMethods

/-- The class in some bytes with other methods, as many as it has. -/
def Edited (bytes : List UInt8) (edited : Class) : Prop :=
  ∃ c, Class.parse bytes = .ok c ∧ edited = { c with methods := edited.methods } ∧
    edited.methods.length = c.methods.length

private theorem runs_ownedMethods {inj last : Injector} {owner : BinaryName}
    {methods made : List Method} (h : Pass.Runs (processMethod owner) inj methods made last) :
    Pass.Runs processOwned inj (methods.map (OwnedMethod.mk owner)) made last := by
  induction h with
  | nil => exact .nil
  | cons head tail ih => exact .cons head ih

/-- A job that succeeds stores every class with what the pass over all methods makes of its own. -/
theorem runs_methodsIn {inj last : Injector} {classes made : List (List UInt8)}
    (h : Pass.Runs processClass inj classes made last) :
    ∃ edited : List Class, List.Forall₂ Edited classes edited ∧
      List.Forall₂ (fun c bytes => Class.serialize c = .ok bytes) edited made ∧
      Pass.Runs processOwned inj (methodsIn classes) (edited.flatMap (·.methods)) last := by
  induction h with
  | nil => exact ⟨[], .nil, .nil, .nil⟩
  | @cons inj last bytes out classes made head tail ih =>
    obtain ⟨c, _, hc, he, hs, hout⟩ := processClass_eq_ok_iff.mp ⟨head, rfl⟩
    obtain ⟨methods, rfl, hr⟩ := runs_of_processMethods he
    obtain ⟨edited, hedited, hmade, hruns⟩ := ih
    have hfirst : Pass.Runs processOwned inj (ownedMethods c) methods
        (inj.processClass bytes).state := hs ▸ runs_ownedMethods hr
    refine ⟨_ :: edited, .cons ⟨c, hc, rfl, hr.length_eq⟩ hedited, .cons hout hmade, ?_⟩
    rw [methodsIn, List.flatMap_cons, hc]
    simp only [Except.toOption, Option.toList_some, List.flatMap_cons, List.flatMap_nil,
      List.append_nil]
    exact hfirst.append hruns

end MethodMetadata.Injector
