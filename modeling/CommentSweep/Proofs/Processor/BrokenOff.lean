import CommentSweep.Processor
import CommentSweep.Proofs.Job.Relates
import CommentSweep.Proofs.Processor.Verdict
import CommentSweep.Proofs.Registry.Mend
import Mathlib

/-!
Processors that are broken off. A processor that is broken off has left the tree alone. One that
returns comes to the same with no hazards but faults of the system and with a registry whose
builders do not fail.
-/

namespace CommentSweep.Processor

open Disk Job

variable {p : Processor} {hazards : List Hazard} {tree : FileTree} {path : Path}

theorem weathers_store (hwell : tree.WellFormed) (shown : String) (content : Text) :
    Weathers hazards (Mild hazards ∧ path.isNullFree) (store path shown content)
      (store path shown content) tree fun a b after => a = b ∧ tree.SameShape after := by
  refine (weathers_overwrite hazards hwell path _).andThen fun a b after h => ?_
  obtain ⟨rfl, hshape⟩ := h
  cases a with
  | error fault =>
      exact ⟨_, _, (returns_say _).bind (returns_pure _), (returns_say _).bind (returns_pure _),
        rfl, hshape⟩
  | ok u =>
      exact ⟨_, _, (returns_say _).bind (returns_pure _), (returns_say _).bind (returns_pure _),
        rfl, hshape⟩

theorem weathers_settle (hwell : tree.WellFormed) (shown : String) (t : Transformed) :
    Weathers hazards (Mild hazards ∧ path.isNullFree) (p.settle path shown t)
      (p.settle path shown t) tree fun a b after => a = b ∧ tree.SameShape after := by
  rw [settle]
  split
  · exact .of_returns (returns_pure _) (returns_pure _) ⟨rfl, .refl tree⟩
  · split
    · exact .of_returns ((returns_say _).bind (returns_pure _))
        ((returns_say _).bind (returns_pure _)) ⟨rfl, .refl tree⟩
    · exact weathers_store hwell shown t.content

theorem weathers_judge (hwell : tree.WellFormed) (registry : Registry) (spare : String → Cleaner)
    (source : Except SystemFault Bytes) :
    Weathers hazards (Mild hazards ∧ path.isNullFree ∧ registry.Sound)
      (p.judge registry path source) (p.judge (registry.mend spare) path source) tree
      fun a b after => tree.SameShape after ∧ (registry.Sound → a.2.Sound) ∧
        b = (a.1, a.2.mend spare) := by
  cases source with
  | error fault =>
      exact .of_returns ((returns_unreadable _ fault).bind (returns_pure _))
        ((returns_unreadable _ fault).bind (returns_pure _)) ⟨.refl tree, id, rfl⟩
  | ok bytes =>
      unfold judge
      simp only
      split
      · exact .of_returns ((returns_undecodable _ _).bind (returns_pure _))
          ((returns_undecodable _ _).bind (returns_pure _)) ⟨.refl tree, id, rfl⟩
      · next raw _ =>
          have hmend := @Registry.transform_mend registry spare (some (Extension.ofPath path)) raw
          have hsound (h : registry.Sound) := h.transform_fst (some (Extension.ofPath path)) raw
          have hnext (h : registry.Sound) := h.transform_snd (some (Extension.ofPath path)) raw
          generalize registry.transform (some (Extension.ofPath path)) raw = result
            at hmend hsound hnext ⊢
          obtain ⟨transformed, next⟩ := result
          cases transformed with
          | error e =>
              refine .of_ends (ends_throw (.build e)) ?_
              intro hsafe
              obtain ⟨t, ht⟩ := hsound hsafe.2.2
              cases ht
          | ok t =>
              rw [hmend rfl]
              have hsettle : Weathers hazards (Mild hazards ∧ path.isNullFree ∧ registry.Sound)
                  (p.settle path (p.display path) t) (p.settle path (p.display path) t) tree
                  fun a b after => a = b ∧ tree.SameShape after :=
                (weathers_settle hwell _ t).mono (fun hsafe => ⟨hsafe.1, hsafe.2.1⟩)
                  fun _ _ _ h => h
              refine hsettle.andThen fun a b after h => ?_
              obtain ⟨rfl, hshape⟩ := h
              exact ⟨_, _, returns_pure _, returns_pure _, hshape, hnext, rfl⟩

theorem weathers_process (hwell : tree.WellFormed) (registry : Registry)
    (spare : String → Cleaner) :
    Weathers hazards (Mild hazards ∧ path.isNullFree ∧ registry.Sound)
      (p.process registry path) (p.process (registry.mend spare) path) tree
      fun a b after => tree.SameShape after ∧ (registry.Sound → a.2.Sound) ∧
        b = (a.1, a.2.mend spare) := by
  rw [process_eq, process_eq]
  split
  · have hread : Weathers hazards (Mild hazards ∧ path.isNullFree ∧ registry.Sound)
        (Job.read path) (Job.read path) tree fun a b after => after = tree ∧ a = b :=
      (weathers_access hazards .read path (·.read path) tree).mono
        (fun hsafe => ⟨hsafe.1, hsafe.2.1⟩) fun a b after h => ⟨h.1, h.2.1⟩
    refine hread.bind fun a b hab => ?_
    subst hab
    exact weathers_judge hwell registry spare a
  · exact .of_returns (returns_pure _) (returns_pure _) ⟨.refl tree, id, rfl⟩

theorem ends_process (hallowed : Extension.isAllowed p.allowed path = true) {abort : Abort}
    (habort : Job.abort? hazards .read path = some abort) (registry : Registry) :
    Ends hazards (p.process registry path) tree (.error abort) tree := by
  rw [process_eq, if_pos hallowed]
  exact (ends_access habort _).bind_error _

end CommentSweep.Processor
