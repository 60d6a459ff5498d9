import Xtrx.Lib.Machine
import Xtrx.Soapy.Streaming

/-!
# The antennas (`soapysdr-xtrx/XTRXDevice.cpp`)

- **Front end** (`Frontend`): `_cachedAntValues`; the path that the library of the LMS7002M was last
  called with for each of its channels (`LMS7002M_rfe_set_path`, `LMS7002M_trf_select_band`; what the
  library does is not here); the registers of the RF switches. There is one RF switch for a
  direction, which both channels share.
- **Functions**: `setAntenna`, `getAntenna`. Every channel but number 0 is channel B of the LMS7002M.
- **`getAntenna_last`**: what is shown for a channel is the last name that was accepted for it.
- **`connected_iff`**: it stays selected (`Connected`) exactly if no accepted call for the same
  direction moves the switch, or calls the library with another path for the same channel of the
  LMS7002M.
-/

namespace Xtrx
namespace Soapy
namespace Antenna

open Conc

/-! ## The functions -/

inductive LmsChan where
  | a
  | b
  deriving DecidableEq

/-- `ch2LMS`. -/
def ch2Lms (channel : Nat) : LmsChan := if channel = 0 then .a else .b

inductive Side where
  | rx
  | tx
  deriving DecidableEq

/-- The input of a receiver, or the band of a transmitter. -/
inductive Path where
  | lnah
  | lnal
  | lnaw
  | lb1
  | lb2
  | band (n : Nat)
  deriving DecidableEq

structure Frontend where
  cachedAntValues : Int → Nat → Option String
  lastPath : Side → LmsChan → Option Path
  rfSwitches : Side → BitVec 32

/-- The names of a direction, each with its path and its position of the RF switch. -/
def Side.antenna : Side → String → Option (Path × BitVec 32)
  | .rx, name =>
    if name = "LNAH" then some (.lnah, 2)
    else if name = "LNAL" then some (.lnal, 1)
    else if name = "LNAW" then some (.lnaw, 0)
    else if name = "LB1" then some (.lb1, 0)
    else if name = "LB2" then some (.lb2, 0)
    else none
  | .tx, name =>
    if name = "BAND1" then some (.band 1, 1)
    else if name = "BAND2" then some (.band 2, 0)
    else none

def Side.text : Side → String
  | .rx => "RX"
  | .tx => "TX"

def Side.direction : Side → Int
  | .rx => soapySdrRx
  | .tx => soapySdrTx

/-- A function of the driver returns or throws. -/
abbrev Call (α : Type) : Type := ExceptT String (StateM Frontend) α

/-- A call of `LMS7002M_rfe_set_path` or `LMS7002M_trf_select_band`. -/
def lmsSelect (d : Side) (channel : LmsChan) (path : Path) : Call Unit :=
  modify fun s => { s with
    lastPath := Function.update s.lastPath d (Function.update (s.lastPath d) channel (some path)) }

/-- The branch of `setAntenna` for a direction. -/
def selectAntenna (d : Side) (channel : Nat) (name : String) : Call Unit :=
  match d.antenna name with
  | none =>
    throw ("SoapyLiteXXTRX::setAntenna(" ++ d.text ++ ", " ++ name ++ ") - unknown antenna name")
  | some (path, rfSwitch) => do
    lmsSelect d (ch2Lms channel) path
    -- litepcie_writel to CSR_RF_SWITCHES_RX_ADDR, CSR_RF_SWITCHES_TX_ADDR
    modify fun s => { s with rfSwitches := Function.update s.rfSwitches d rfSwitch }

/-- `_cachedAntValues[direction][channel] = name`. -/
def cacheAntenna (direction : Int) (channel : Nat) (name : String) (s : Frontend) : Frontend :=
  { s with
    cachedAntValues := Function.update s.cachedAntValues direction <|
      Function.update (s.cachedAntValues direction) channel (some name) }

/-- `setAntenna`. -/
def setAntenna (direction : Int) (channel : Nat) (name : String) : Call Unit := do
  if direction = soapySdrRx then
    selectAntenna .rx channel name
  if direction = soapySdrTx then
    selectAntenna .tx channel name
  modify (cacheAntenna direction channel name)

/-- `getAntenna`. -/
def getAntenna (direction : Int) (channel : Nat) : Call String := do
  match (← get).cachedAntValues direction channel with
  | some name => return name
  | none => throw "map::at"

/-- A call of `setAntenna`. -/
structure SetAntenna where
  direction : Int
  channel : Nat
  name : String

/-- Calls one after the other; what they throw is caught. -/
def machine : Machine Frontend SetAntenna :=
  ⟨fun s c => some ((setAntenna c.direction c.channel c.name).run s).2⟩

/-! ## What a call does -/

/-- The direction with a number. -/
def sideOf (direction : Int) : Option Side :=
  if direction = soapySdrRx then some .rx
  else if direction = soapySdrTx then some .tx
  else none

theorem sideOf_eq_some {direction : Int} {d : Side} :
    sideOf direction = some d ↔ direction = d.direction := by
  unfold sideOf
  constructor
  · intro h
    split at h
    · cases h
      assumption
    · split at h
      · cases h
        assumption
      · cases h
  · rintro rfl
    cases d with
    | rx => rfl
    | tx => rfl

theorem direction_inj {d d' : Side} (h : d.direction = d'.direction) : d = d' := by
  have h := (sideOf_eq_some.mpr h).symm.trans (sideOf_eq_some.mpr rfl)
  exact (Option.some.inj h).symm

/-- The front end with a path and a position of the switch. -/
def connect (d : Side) (channel : Nat) (w : Path × BitVec 32) (s : Frontend) : Frontend :=
  { s with
    lastPath := Function.update s.lastPath d
      (Function.update (s.lastPath d) (ch2Lms channel) (some w.1))
    rfSwitches := Function.update s.rfSwitches d w.2 }

/-- `setAntenna` connects the antenna and caches its name, or throws and changes nothing; for a
direction that is neither it only caches the name. -/
theorem setAntenna_run (direction : Int) (channel : Nat) (name : String) (s : Frontend) :
    ((setAntenna direction channel name).run s).2 =
      match sideOf direction with
      | none => cacheAntenna direction channel name s
      | some d =>
        match d.antenna name with
        | none => s
        | some w => cacheAntenna direction channel name (connect d channel w s) := by
  cases hd : sideOf direction with
  | none =>
    have hrx : direction ≠ soapySdrRx := fun h => by subst h; cases hd
    have htx : direction ≠ soapySdrTx := fun h => by subst h; cases hd
    simp only [setAntenna, if_neg hrx, if_neg htx]
    rfl
  | some d =>
    obtain rfl := sideOf_eq_some.mp hd
    cases d with
    | rx =>
      cases hname : Side.rx.antenna name with
      | none =>
        simp only [setAntenna, selectAntenna, Side.direction, hname]
        rfl
      | some w =>
        simp only [setAntenna, selectAntenna, Side.direction, hname]
        rfl
    | tx =>
      cases hname : Side.tx.antenna name with
      | none =>
        simp only [setAntenna, selectAntenna, Side.direction, hname]
        rfl
      | some w =>
        simp only [setAntenna, selectAntenna, Side.direction, hname]
        rfl

/-! ## What `getAntenna` shows -/

variable {s s' t : Frontend} {c : SetAntenna} {cs : List SetAntenna} {direction : Int} {channel : Nat}
  {d : Side}

/-- What `getAntenna` gives for a direction and a channel. -/
def shown (direction : Int) (channel : Nat) (s : Frontend) : Except String String :=
  ((getAntenna direction channel).run s).1

theorem shown_eq (direction : Int) (channel : Nat) (s : Frontend) :
    shown direction channel s =
      match s.cachedAntValues direction channel with
      | some name => .ok name
      | none => .error "map::at" := by
  have hrun : (getAntenna direction channel).run s =
      ((match s.cachedAntValues direction channel with
        | some name => pure name
        | none => throw "map::at" : Call String).run s) := rfl
  rw [shown, hrun]
  cases s.cachedAntValues direction channel with
  | none => rfl
  | some name => rfl

/-- What a call makes `getAntenna` show, if it is accepted. -/
def SetAntenna.shows (direction : Int) (channel : Nat) (c : SetAntenna) :
    Option (Except String String) :=
  if c.direction = direction ∧ c.channel = channel ∧
      ((sideOf c.direction).all fun d => (d.antenna c.name).isSome) then
    some (.ok c.name)
  else none

theorem cached_cacheAntenna (direction' : Int) (channel' : Nat) (name : String) :
    (cacheAntenna direction' channel' name s).cachedAntValues direction channel =
      if direction' = direction ∧ channel' = channel then some name
      else s.cachedAntValues direction channel := by
  show Function.update s.cachedAntValues direction'
    (Function.update (s.cachedAntValues direction') channel' (some name)) direction channel = _
  by_cases hd : direction' = direction
  · subst hd
    rw [Function.update_self]
    by_cases hc : channel' = channel
    · subst hc
      rw [Function.update_self, if_pos ⟨rfl, rfl⟩]
    · rw [Function.update_of_ne (Ne.symm hc), if_neg fun h => hc h.2]
  · rw [Function.update_of_ne (Ne.symm hd), if_neg fun h => hd h.1]

theorem shown_cacheAntenna (direction' : Int) (channel' : Nat) (name : String) :
    shown direction channel (cacheAntenna direction' channel' name s) =
      if direction' = direction ∧ channel' = channel then .ok name else shown direction channel s := by
  rw [shown_eq, shown_eq, cached_cacheAntenna]
  by_cases h : direction' = direction ∧ channel' = channel
  · rw [if_pos h, if_pos h]
  · rw [if_neg h, if_neg h]

@[simp] theorem shown_connect (channel' : Nat) (w : Path × BitVec 32) :
    shown direction channel (connect d channel' w s) = shown direction channel s := by
  rw [shown_eq, shown_eq]
  rfl

theorem step_eq (h : machine.step s c = some s') :
    s' = ((setAntenna c.direction c.channel c.name).run s).2 :=
  (Option.some.inj h).symm

theorem shown_step (s : Frontend) (c : SetAntenna) (s' : Frontend)
    (h : machine.step s c = some s') :
    shown direction channel s' = (c.shows direction channel).getD (shown direction channel s) := by
  rw [step_eq h, setAntenna_run, SetAntenna.shows]
  cases hside : sideOf c.direction with
  | none =>
    simp only [shown_cacheAntenna, Option.all_none, and_true]
    split
    · rfl
    · rfl
  | some d =>
    cases hname : d.antenna c.name with
    | none => simp [hname]
    | some w =>
      simp only [shown_cacheAntenna, shown_connect, Option.all_some, hname, Option.isSome_some,
        and_true]
      split
      · rfl
      · rfl

/-- After any calls `getAntenna` shows the last name that was accepted for the channel. -/
theorem getAntenna_last (hr : machine.run cs s = some t) :
    shown direction channel t =
      (cs.filterMap (SetAntenna.shows direction channel)).getLast?.getD (shown direction channel s) :=
  Machine.run_last shown_step hr

/-! ## What is connected -/

/-- The antenna that `getAntenna` shows for a channel is the one that was selected: the library was
last called with its path, and the RF switch has its position. -/
def Connected (d : Side) (channel : Nat) (s : Frontend) : Prop :=
  ∃ name w, shown d.direction channel s = .ok name ∧ d.antenna name = some w ∧
    s.lastPath d (ch2Lms channel) = some w.1 ∧ s.rfSwitches d = w.2

/-- A call leaves the switch and the path of a channel as they are, if it is for another channel. -/
def Keeps (d : Side) (channel : Nat) (s : Frontend) (c : SetAntenna) : Prop :=
  c.direction = d.direction → c.channel ≠ channel → ∀ w, d.antenna c.name = some w →
    w.2 = s.rfSwitches d ∧
      (ch2Lms c.channel = ch2Lms channel → some w.1 = s.lastPath d (ch2Lms channel))

theorem connected_congr (hshown : shown d.direction channel s' = shown d.direction channel s)
    (hpath : s'.lastPath d = s.lastPath d) (hswitch : s'.rfSwitches d = s.rfSwitches d) :
    Connected d channel s' ↔ Connected d channel s := by
  unfold Connected
  rw [hshown, hpath, hswitch]

theorem connected_cacheAntenna {direction' : Int} {channel' : Nat} {name : String}
    (h : direction' ≠ d.direction) :
    Connected d channel (cacheAntenna direction' channel' name s) ↔ Connected d channel s :=
  connected_congr (by rw [shown_cacheAntenna, if_neg fun he => h he.1]) rfl rfl

/-- What is connected for the other direction does not matter. -/
theorem connected_connect_of_ne {d' : Side} {channel' : Nat} {w : Path × BitVec 32} (h : d' ≠ d) :
    Connected d channel (connect d' channel' w s) ↔ Connected d channel s :=
  connected_congr (shown_connect channel' w) (Function.update_of_ne h.symm _ _)
    (Function.update_of_ne h.symm _ _)

/-- An accepted call connects its channel. -/
theorem connected_self {name : String} {w : Path × BitVec 32} (h : d.antenna name = some w) :
    Connected d channel (cacheAntenna d.direction channel name (connect d channel w s)) := by
  refine ⟨name, w, ?_, h, ?_, Function.update_self ..⟩
  · rw [shown_cacheAntenna, if_pos ⟨rfl, rfl⟩]
  · show Function.update s.lastPath d _ d _ = _
    rw [Function.update_self, Function.update_self]

theorem lastPath_connect (channel' : Nat) (w : Path × BitVec 32) :
    (connect d channel' w s).lastPath d (ch2Lms channel) =
      if ch2Lms channel' = ch2Lms channel then some w.1 else s.lastPath d (ch2Lms channel) := by
  show Function.update s.lastPath d _ d _ = _
  rw [Function.update_self]
  by_cases hk : ch2Lms channel' = ch2Lms channel
  · rw [if_pos hk, hk, Function.update_self]
  · rw [if_neg hk, Function.update_of_ne (Ne.symm hk)]

/-- An accepted call for another channel of the direction. -/
theorem connected_other {w : Path × BitVec 32} {channel' : Nat} {name : String}
    (h : Connected d channel s) (hc : channel' ≠ channel) :
    Connected d channel (cacheAntenna d.direction channel' name (connect d channel' w s)) ↔
      w.2 = s.rfSwitches d ∧
        (ch2Lms channel' = ch2Lms channel → some w.1 = s.lastPath d (ch2Lms channel)) := by
  obtain ⟨name₀, w₀, hshown, hant, hpath, hswitch⟩ := h
  have hshown' : shown d.direction channel
      (cacheAntenna d.direction channel' name (connect d channel' w s)) = .ok name₀ := by
    rw [shown_cacheAntenna, if_neg fun h => hc h.2, shown_connect, hshown]
  have hswitch' : (connect d channel' w s).rfSwitches d = w.2 := Function.update_self ..
  constructor
  · rintro ⟨name₁, w₁, h₁, hant₁, hp, hs⟩
    obtain rfl : name₁ = name₀ := Except.ok.inj (h₁.symm.trans hshown')
    obtain rfl : w₁ = w₀ := Option.some.inj (hant₁.symm.trans hant)
    refine ⟨hswitch'.symm.trans (hs.trans hswitch.symm), fun hk => ?_⟩
    have hp : (connect d channel' w s).lastPath d (ch2Lms channel) = some w₁.1 := hp
    rw [lastPath_connect, if_pos hk] at hp
    rw [hp, hpath]
  · rintro ⟨hw, hk⟩
    refine ⟨name₀, w₀, hshown', hant, ?_, hswitch'.trans (hw.trans hswitch)⟩
    show (connect d channel' w s).lastPath d (ch2Lms channel) = some w₀.1
    rw [lastPath_connect]
    split
    · rename_i hsame
      rw [hk hsame, hpath]
    · exact hpath

/-- A call keeps a channel connected exactly if it is one that `Keeps` says. -/
theorem connected_step (h : Connected d channel s) (hst : machine.step s c = some s') :
    Connected d channel s' ↔ Keeps d channel s c := by
  rw [step_eq hst, setAntenna_run]
  cases hside : sideOf c.direction with
  | none =>
    have hne : c.direction ≠ d.direction := fun he => by
      rw [he, sideOf_eq_some.mpr rfl] at hside
      cases hside
    exact ⟨fun _ he => absurd he hne, fun _ => (connected_cacheAntenna hne).mpr h⟩
  | some d' =>
    have hdir := sideOf_eq_some.mp hside
    cases hname : d'.antenna c.name with
    | none =>
      refine ⟨fun _ he _ w hw => ?_, fun _ => by simpa only [hname] using h⟩
      obtain rfl := direction_inj (hdir.symm.trans he)
      rw [hname] at hw
      cases hw
    | some w =>
      simp only [hname]
      by_cases hd : d' = d
      · subst hd
        rw [hdir]
        by_cases hc : c.channel = channel
        · subst hc
          exact ⟨fun _ _ hne => absurd rfl hne, fun _ => connected_self hname⟩
        · rw [connected_other h hc]
          refine ⟨fun hk _ _ w' hw' => ?_, fun hk => hk hdir hc w hname⟩
          obtain rfl : w = w' := Option.some.inj (hname.symm.trans hw')
          exact hk
      · have hne : c.direction ≠ d.direction := fun he => hd (direction_inj (hdir.symm.trans he))
        rw [connected_cacheAntenna hne, connected_connect_of_ne hd]
        exact ⟨fun _ he => absurd he hne, fun _ => h⟩

/-- The antenna that is shown for a channel stays the one that was selected exactly if each accepted call
for another channel of the direction leaves the switch where it is and, if that channel has the same
number in the LMS7002M, calls the library with the same path. -/
theorem connected_iff (h : Connected d channel s) :
    machine.Always (Connected d channel) cs s ↔ machine.Along (Keeps d channel) cs s :=
  Machine.always_iff_along (fun _ _ _ hs hc hst => (connected_step hs hst).mpr hc) (fun _ h => h)
    (fun _ _ _ hs hst h' => (connected_step hs hst).mp h') h

/-- The calls of the constructor. -/
def defaults : List SetAntenna :=
  (List.range 2).flatMap fun i => [⟨soapySdrRx, i, "LNAW"⟩, ⟨soapySdrTx, i, "BAND1"⟩]

/-- Nothing is cached, and the registers have their values after a reset. -/
def reset : Frontend := ⟨fun _ _ => none, fun _ _ => none, fun _ => 0⟩

/-- The front end that the constructor leaves. -/
def started : Frontend := (machine.run defaults reset).getD reset

theorem started_connected : Connected .rx 1 started :=
  ⟨"LNAW", (.lnaw, 0), rfl, rfl, rfl, rfl⟩

/-- A new antenna for the first receiver disconnects the second one. -/
theorem connected_iff_shared :
    ¬ machine.Always (Connected .rx 1) [⟨soapySdrRx, 0, "LNAH"⟩] started := by
  intro h
  have hkeeps := ((connected_iff started_connected).mp h _ rfl).1
  have hswitch := (hkeeps rfl (by decide) (.lnah, 2) rfl).1
  exact absurd hswitch (by decide)

/-- The antenna of the second receiver is shown as before. -/
theorem getAntenna_last_shared :
    shown soapySdrRx 1 ((machine.run [⟨soapySdrRx, 0, "LNAH"⟩] started).getD started) =
      .ok "LNAW" := by
  have hrun : machine.run (defaults ++ [⟨soapySdrRx, 0, "LNAH"⟩]) reset =
      some ((machine.run [⟨soapySdrRx, 0, "LNAH"⟩] started).getD started) := rfl
  rw [getAntenna_last hrun]
  rfl

end Antenna
end Soapy
end Xtrx
