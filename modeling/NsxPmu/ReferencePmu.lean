import NsxPmu.Hardware

set_option autoImplicit false

/-!
# A reference PMU

An executable counter unit under the driver. It satisfies everything the driver
relies on, and its script of outcomes makes chosen vendor calls fail.
-/
namespace NsxPmu

/-- Event types, enable bits and 16-bit values of the counters, and the outcomes the next
vendor calls will have. -/
structure RefPmu where
  evtyper : ℕ → Word
  enabled : Word
  evcntr : ℕ → Word
  outcomes : List Status

def RefPmu.popOutcome (hw : RefPmu) : Status × RefPmu :=
  (hw.outcomes.headD 0, { hw with outcomes := hw.outcomes.tail })

def refPlatform : Platform RefPmu where
  coreCheckApi _ _ _ hw := (statusSuccess, hw)
  ambiqPmuEnable hw := hw.popOutcome
  ambiqPmuInit cfg hw :=
    if hw.popOutcome.1 = 0 then
      (0, { hw.popOutcome.2 with
              evtyper := cfg.eventTypes, enabled := cfg.counters, evcntr := fun _ => 0 })
    else hw.popOutcome
  cntrEnable mask hw := { hw with enabled := hw.enabled ||| mask }
  cntrDisable mask hw := { hw with enabled := hw.enabled &&& ~~~mask }
  cyccntReset hw := hw
  evcntrAllReset hw := { hw with evcntr := fun _ => 0 }
  setCntrOvs _ hw := hw
  getEvcntr k hw := hw.evcntr k &&& 0xFFFF

/-- Before anything is programmed, with every vendor call succeeding. -/
def RefPmu.start : RefPmu := ⟨fun _ => 0, 0, fun _ => 0, []⟩

def RefPmu.occur (x : Word) (hw : RefPmu) : RefPmu :=
  { hw with
      evcntr := fun k =>
        let value := (hw.evcntr k &&& 0xFFFF).toNat
        if !hw.enabled.getLsbD k then value
        else if hw.evtyper k = armPmuChain then
          if hw.enabled.getLsbD (k - 1) = true ∧ hw.evtyper (k - 1) = x ∧
              (hw.evcntr (k - 1) &&& 0xFFFF).toNat = 65535 then
            BitVec.ofNat 32 ((value + 1) % 65536)
          else value
        else if hw.evtyper k = x then BitVec.ofNat 32 ((value + 1) % 65536)
        else value }

theorem refPlatform_init_ok {cfg : AmbiqPmuConfig} {hw : RefPmu} (h : hw.popOutcome.1 = 0) :
    refPlatform.ambiqPmuInit cfg hw = (0, { hw.popOutcome.2 with
      evtyper := cfg.eventTypes, enabled := cfg.counters, evcntr := fun _ => 0 }) :=
  if_pos h

theorem refPlatform_init_failed {cfg : AmbiqPmuConfig} {hw : RefPmu} (h : hw.popOutcome.1 ≠ 0) :
    refPlatform.ambiqPmuInit cfg hw = hw.popOutcome :=
  if_neg h

theorem refPlatform_programs : Programs refPlatform RefPmu.evtyper where
  checkApi _ _ _ _ _ _ := rfl
  enable _ _ _ := rfl
  init cfg hw ok k _ := by
    by_cases h : hw.popOutcome.1 = 0
    · rw [refPlatform_init_ok h]
    · rw [refPlatform_init_failed h] at ok
      exact absurd ok h
  initFailed cfg hw failed k _ := by
    by_cases h : hw.popOutcome.1 = 0
    · rw [refPlatform_init_ok h] at failed
      exact absurd rfl failed
    · rw [refPlatform_init_failed h]
      rfl
  cntrEnable _ _ _ _ := rfl
  cntrDisable _ _ _ _ := rfl
  cyccntReset _ _ _ := rfl
  evcntrAllReset _ _ _ := rfl
  setCntrOvs _ _ _ _ := rfl

/-- The reference PMU when no vendor call fails. -/
def steadyPlatform : Platform RefPmu :=
  { refPlatform with
      ambiqPmuEnable := fun hw => (0, hw)
      ambiqPmuInit := fun cfg hw =>
        (0, { hw with evtyper := cfg.eventTypes, enabled := cfg.counters, evcntr := fun _ => 0 }) }

theorem steadyPlatform_programs : Programs steadyPlatform RefPmu.evtyper where
  checkApi _ _ _ _ _ _ := rfl
  enable _ _ _ := rfl
  init _ _ _ _ _ := rfl
  initFailed _ _ failed := absurd rfl failed
  cntrEnable _ _ _ _ := rfl
  cntrDisable _ _ _ _ := rfl
  cyccntReset _ _ _ := rfl
  evcntrAllReset _ _ _ := rfl
  setCntrOvs _ _ _ _ := rfl

theorem steadyPlatform_answers (api : CoreApi) : Answers steadyPlatform api where
  checkApi _ := rfl
  enable _ := rfl
  init _ _ := rfl

theorem low16_toNat (w : Word) : (w &&& 0xFFFF).toNat = w.toNat % 65536 := by
  have mask := Nat.and_two_pow_sub_one_eq_mod w.toNat 16
  simpa using mask

theorem low16_ofNat {n : ℕ} (h : n < 65536) : (BitVec.ofNat 32 n &&& 0xFFFF).toNat = n := by
  rw [low16_toNat, BitVec.toNat_ofNat]
  omega

def RefPmu.counterOn (hw : RefPmu) (k : ℕ) : Bool := hw.enabled.getLsbD k

theorem RefPmu.counterOn_eq (hw : RefPmu) {k : ℕ} : hw.counterOn k = hw.enabled.getLsbD k := rfl

theorem RefPmu.occur_event (x : Word) (hw : RefPmu) (k : ℕ) (plain : hw.evtyper k ≠ armPmuChain) :
    ((RefPmu.occur x hw).evcntr k &&& 0xFFFF).toNat =
      if hw.counterOn k = true ∧ hw.evtyper k = x then
        ((hw.evcntr k &&& 0xFFFF).toNat + 1) % 65536
      else (hw.evcntr k &&& 0xFFFF).toNat := by
  have value := Nat.mod_lt (hw.evcntr k).toNat (y := 65536) (by omega)
  rw [← low16_toNat] at value
  dsimp only [RefPmu.occur]
  by_cases on : hw.counterOn k = true
  · rw [if_neg (by simp [hw.counterOn_eq.symm, on]), if_neg plain]
    by_cases mine : hw.evtyper k = x
    · rw [if_pos mine, if_pos ⟨on, mine⟩]
      exact low16_ofNat (Nat.mod_lt _ (by omega))
    · rw [if_neg mine, if_neg fun both => mine both.2]
      exact low16_ofNat value
  · rw [if_pos (by simp [hw.counterOn_eq.symm, on]), if_neg fun both => on both.1]
    exact low16_ofNat value

theorem RefPmu.occur_chain (x : Word) (hw : RefPmu) (k : ℕ)
    (chained : hw.evtyper (k + 1) = armPmuChain) :
    ((RefPmu.occur x hw).evcntr (k + 1) &&& 0xFFFF).toNat =
      if hw.counterOn (k + 1) = true ∧ hw.counterOn k = true ∧ hw.evtyper k = x ∧
          (hw.evcntr k &&& 0xFFFF).toNat = 65535 then
        ((hw.evcntr (k + 1) &&& 0xFFFF).toNat + 1) % 65536
      else (hw.evcntr (k + 1) &&& 0xFFFF).toNat := by
  have value := Nat.mod_lt (hw.evcntr (k + 1)).toNat (y := 65536) (by omega)
  rw [← low16_toNat] at value
  dsimp only [RefPmu.occur]
  by_cases on : hw.counterOn (k + 1) = true
  · rw [if_neg (by simp [hw.counterOn_eq.symm, on]), if_pos chained]
    by_cases wraps : hw.counterOn k = true ∧ hw.evtyper k = x ∧
        (hw.evcntr k &&& 0xFFFF).toNat = 65535
    · rw [if_pos (by exact wraps), if_pos ⟨on, wraps⟩]
      exact low16_ofNat (Nat.mod_lt _ (by omega))
    · rw [if_neg (by exact wraps), if_neg fun all => wraps all.2]
      exact low16_ofNat value
  · rw [if_pos (by simp [hw.counterOn_eq.symm, on]), if_neg fun all => on all.1]
    exact low16_ofNat value

theorem refPlatform_counts : Counts refPlatform RefPmu.evtyper RefPmu.counterOn RefPmu.occur where
  init cfg hw ok k _ := by
    by_cases h : hw.popOutcome.1 = 0
    · rw [refPlatform_init_ok h]
      exact ⟨rfl, rfl, BitVec.zero_and⟩
    · rw [refPlatform_init_failed h] at ok
      exact absurd ok h
  cntrEnable mask hw k _ := ⟨rfl, BitVec.getLsbD_or, rfl⟩
  cntrDisable mask hw k hk := by
    refine ⟨rfl, ?_, rfl⟩
    dsimp only [refPlatform, RefPmu.counterOn, maxCounters] at hk ⊢
    rw [BitVec.getLsbD_and, BitVec.getLsbD_not, decide_eq_true (by omega), Bool.true_and]
  cyccntReset _ _ _ := ⟨rfl, rfl, rfl⟩
  evcntrAllReset _ _ _ := ⟨rfl, rfl, BitVec.zero_and⟩
  setCntrOvs _ _ _ _ := ⟨rfl, rfl, rfl⟩
  occurs _ _ _ _ := ⟨rfl, rfl⟩
  event x hw k _ plain := RefPmu.occur_event x hw k plain
  chain x hw k _ _ _ chained := RefPmu.occur_chain x hw k chained

theorem steadyPlatform_counts :
    Counts steadyPlatform RefPmu.evtyper RefPmu.counterOn RefPmu.occur :=
  { refPlatform_counts with init := fun _ _ _ _ _ => ⟨rfl, rfl, BitVec.zero_and⟩ }

end NsxPmu
