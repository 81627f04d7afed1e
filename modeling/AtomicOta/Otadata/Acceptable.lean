import AtomicOta.Otadata.Search

/-!
# Which writes are accepted

A write that is executed to the end leaves the encoding of its entry, and the reader takes
it for that entry only if the entry is admissible. Every decision keeps to that but one:
what `AtomicOta.Otadata.planBoot`, `AtomicOta.Otadata.confirm` and
`AtomicOta.Otadata.reject` write has the sequence of an accepted entry, or is the seed,
whereas `AtomicOta.Otadata.activate` makes a sequence of its own, and its search goes up to
`u32::MAX` – a number the reader refuses.

That number is taken when it is the only one left for the target
(`AtomicOta.Otadata.OnlyLastLeft`), and then alone
(`AtomicOta.Otadata.writes_accepted_iff`).
-/

namespace AtomicOta.Otadata

/-- Numbers that select the same slot are a cycle apart at least. -/
theorem add_le_of_slotOf_eq {q r : UInt32} {n : UInt8} (hn : 1 ≤ n) (hq : q ≠ 0)
    (hlt : q.toNat < r.toNat) (h : slotOf q n = slotOf r n) : q.toNat + n.toNat ≤ r.toNat := by
  have hq' := one_le_toNat hq
  have hr : r ≠ 0 := by
    rintro rfl
    exact absurd hlt (Nat.not_lt_zero _)
  have hmod : (r.toNat - 1) % n.toNat = (q.toNat - 1) % n.toNat := by
    rw [← toNat_slotOf hn hq, ← toNat_slotOf hn hr, h]
  have hdvd : n.toNat ∣ r.toNat - 1 - (q.toNat - 1) :=
    Nat.dvd_of_mod_eq_zero (Nat.sub_mod_eq_zero_of_mod_eq hmod)
  have := Nat.le_of_dvd (by omega) hdvd
  omega

/-- **Only the last number is left for the target**: it selects it, and the highest
sequence present is within a cycle of it. An activation of the target is not refused for
want of a valid entry. -/
structure OnlyLastLeft (f : Flash) (n target : UInt8) : Prop where
  valid : ∃ s e, decode (f s) = .ok e ∧ e.state = State.valid
  slot : slotOf u32Max n = target
  near : ∃ m, IsTop f m ∧ u32Max.toNat ≤ m.toNat + n.toNat

/-- A write one of the decisions may ask for. -/
def Asks (f : Flash) (n target : UInt8) (ok : ImageOk) (w : Write) : Prop :=
  w ∈ (planBoot f n ok).writes ∨ activate f n target = .ok w ∨ confirm f = some w ∨
    reject f = some w

variable {f : Flash} {n target : UInt8} {ok : ImageOk} {w : Write}

/-- An entry with the sequence of an accepted one is admissible in any known state. -/
theorem admissible_of_view {s : Sector} {e : Entry} {state : UInt32} (h : view f s = some e)
    (hs : Entry.Known state) : Entry.Admissible ⟨e.seq, state⟩ :=
  ⟨(admissible_of_accepted h).seq_ne_zero, (admissible_of_accepted h).seq_ne_max, hs⟩

/-- What a boot writes is admissible. -/
theorem admissible_of_planBoot (hw : w ∈ (planBoot f n ok).writes) : w.entry.Admissible := by
  cases (decides_planBoot f n ok).reason hw with
  | abort e he _ hw => exact hw ▸ admissible_of_view he (by decide)
  | invalid e he _ _ hw => exact hw ▸ admissible_of_view he (by decide)
  | mark e he _ _ hw => exact hw ▸ admissible_of_view he (by decide)
  | seed _ _ hw =>
    rw [hw]
    decide

/-- What `activate` writes is admissible, but for the last number. -/
theorem admissible_of_activate (hw : activate f n target = .ok w) (hmax : w.entry.seq ≠ u32Max) :
    w.entry.Admissible := by
  obtain ⟨e, he, hnew, -, habove⟩ := activate_ok hw
  refine ⟨?_, hmax, .inl hnew⟩
  rintro h0
  have := habove _ _ he.entry
  rw [h0] at this
  exact absurd this (Nat.not_lt_zero _)

/-- `activate` takes the last number only when it is the only one left. -/
theorem onlyLastLeft_of_activate (hn : 1 ≤ n) (hw : activate f n target = .ok w)
    (hmax : w.entry.seq = u32Max) : OnlyLastLeft f n target := by
  obtain ⟨b, hb, -, hslot, -⟩ := activate_ok hw
  have hdecode := accepted_eq_some.mp hb.entry
  obtain ⟨m, hm⟩ := exists_isTop hdecode
  refine ⟨⟨_, b, hdecode, Entry.trust_eq_valid.mp hb.trust⟩, hmax ▸ hslot, m, hm, ?_⟩
  rcases activate_spec (n := n) hm hb target with ⟨s, -, rfl, hleast, heq⟩ | ⟨-, heq⟩
  · have hw' := Except.ok.inj (heq.symm.trans hw)
    obtain rfl : s = u32Max := (congrArg (fun w => w.entry.seq) hw').trans hmax
    have := sub_le_of_least hn hleast
    omega
  · rw [heq] at hw
    cases hw

/-- When only the last number is left, `activate` takes it. -/
theorem OnlyLastLeft.activate_eq (h : OnlyLastLeft f n target) (hn : 1 ≤ n) :
    ∃ w, activate f n target = .ok w ∧ w.entry.seq = u32Max := by
  obtain ⟨⟨s, e, he, hs⟩, rfl, m, hm, hnear⟩ := h
  obtain ⟨p, b, hb⟩ := exists_isHighest (accepted_eq_some.mpr he) (Entry.trust_eq_valid.mpr hs)
  have hbelow : m < u32Max := by
    obtain ⟨s', e', he', rfl⟩ := hm.mem
    have hne := ((decode_eq_ok_iff _ _).mp he').1.seq_ne_max
    have hlt : e'.seq.toNat ≠ u32Max.toNat := fun heq => hne (UInt32.toNat_inj.mp heq)
    have hbound : e'.seq.toNat < 2 ^ 32 := e'.seq.toNat_lt
    have hlast : u32Max.toNat = 2 ^ 32 - 1 := rfl
    rw [UInt32.lt_iff_toNat_lt]
    omega
  rcases activate_spec (n := n) hm hb (slotOf u32Max n) with ⟨q, hlt, hslot, -, heq⟩ | ⟨hnone, -⟩
  · refine ⟨_, heq, ?_⟩
    -- any number below the last that selects the target is not above those present
    by_contra hne
    dsimp only at hne
    rw [UInt32.lt_iff_toNat_lt] at hlt
    have hbound : q.toNat < 2 ^ 32 := q.toNat_lt
    have hlast : u32Max.toNat = 2 ^ 32 - 1 := rfl
    have hq : q.toNat ≠ u32Max.toNat := fun heq => hne (UInt32.toNat_inj.mp heq)
    have hq0 : q ≠ 0 := ne_zero_of_lt (UInt32.lt_iff_toNat_lt.mpr hlt)
    have := add_le_of_slotOf_eq hn hq0 (by omega) hslot
    omega
  · exact absurd rfl (hnone u32Max hbelow)

/-- **Every write is one the reader accepts, unless only the last number is left** for
the target of an activation. -/
theorem writes_accepted_iff (f : Flash) (n target : UInt8) (ok : ImageOk) (hn : 1 ≤ n) :
    (∀ w, Asks f n target ok w → decode w.entry.encode = .ok w.entry) ↔
      ¬OnlyLastLeft f n target := by
  constructor
  · intro h hlast
    obtain ⟨w, hw, hmax⟩ := hlast.activate_eq hn
    have hadm := ((decode_eq_ok_iff _ _).mp (h w (.inr (.inl hw)))).1
    exact hadm.seq_ne_max hmax
  · rintro h w (hw | hw | hw | hw)
    · exact decode_encode (admissible_of_planBoot hw)
    · exact decode_encode (admissible_of_activate hw fun hmax =>
        h (onlyLastLeft_of_activate hn hw hmax))
    · obtain ⟨e, he, hwe⟩ := confirm_some hw
      exact decode_encode (hwe ▸ admissible_of_view he.entry (by decide))
    · obtain ⟨e, he, hwe⟩ := reject_some hw
      exact decode_encode (hwe ▸ admissible_of_view he.entry (by decide))

/-- On a flash that holds the valid sequence 1 the last number is far, and what an
activation of slot 1 writes is accepted. -/
theorem writes_accepted_iff_single :
    ¬OnlyLastLeft (single 0 ⟨1, State.valid⟩) 2 1 ∧
      ((∀ w, Asks (single 0 ⟨1, State.valid⟩) 2 1 (fun _ _ => true) w →
          decode w.entry.encode = .ok w.entry) ↔
        ¬OnlyLastLeft (single 0 ⟨1, State.valid⟩) 2 1) := by
  refine ⟨?_, writes_accepted_iff (single 0 ⟨1, State.valid⟩) 2 1 (fun _ _ => true) (by decide)⟩
  rintro ⟨-, hslot, -⟩
  exact absurd hslot (by decide)

/-- **The last number**: above the valid sequence `u32::MAX - 1`, slot 0 of two is
activated with an entry the reader refuses. -/
theorem activates_last :
    ¬∀ (f : Flash) (n target : UInt8) (ok : ImageOk), 1 ≤ n → target < n →
      ∀ w, Asks f n target ok w → decode w.entry.encode = .ok w.entry := by
  intro h
  have hw : activate (single 0 ⟨0xFFFFFFFE, State.valid⟩) 2 0 = .ok ⟨1, ⟨u32Max, State.new⟩⟩ :=
    activate_of_next (p := 0) (q := 0xFFFFFFFE) (by decide +kernel) (by decide +kernel) (by decide)
  have hdecode := h _ 2 0 (fun _ _ => true) (by decide) (by decide) _ (.inr (.inl hw))
  exact ((decode_eq_ok_iff _ _).mp hdecode).1.seq_ne_max rfl

end AtomicOta.Otadata
