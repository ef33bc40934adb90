import Grants.Holder
import Grants.Policy

/-!
# Requests and findings

A request asks whether a holder has some flags and may use them now.  The answer
to each required flag is a finding.
-/

namespace Grants

structure Request where
  holder : Holder
  required : List Flag
  /-- Granted on top of the stored flags, for this request only. -/
  additional : List Flag := []
  policy : Policy := {}
  deriving DecidableEq

/-- A setting of a request under construction. -/
inductive Request.Setting
  | additional (flags : List Flag)
  | respectCooldown (yes : Bool)
  | invokeCooldown (yes : Bool)
  | respectLimit (yes : Bool)
  | invokeLimit (yes : Bool)
  /-- Respect and invoke cooldowns and limits. -/
  | invoke
  deriving DecidableEq

namespace Request

def set (r : Request) : Setting → Request
  | .additional flags => { r with additional := flags }
  | .respectCooldown yes => { r with policy.respectCooldown := yes }
  | .invokeCooldown yes => { r with policy.invokeCooldown := yes }
  | .respectLimit yes => { r with policy.respectLimit := yes }
  | .invokeLimit yes => { r with policy.invokeLimit := yes }
  | .invoke => { r with policy := ⟨true, true, true, true⟩ }

/-- A request for flags, with settings made one after the other. -/
def build (holder : Holder) (required : List Flag) (settings : List Setting) : Request :=
  settings.foldl set { holder, required }

end Request

structure Finding where
  flag : Flag
  passed : Bool
  onCooldown : Option Bool := none
  cooldownExpires : Option UInt64 := none
  /-- The granted flag whose cooldown and limit applied. -/
  matched : Option Flag := none
  limitExhausted : Bool := false
  deriving DecidableEq

namespace Finding

def unmatched (flag : Flag) : Finding := { flag, passed := false }

def ofVerdict (flag matched : Flag) (v : Verdict) : Finding :=
  ⟨flag, v.passed, v.onCooldown, v.cooldownExpires, some matched, v.limitExhausted⟩

def allPassed (fs : List Finding) : Bool := fs.all (·.passed)

/-- The required flags that did not pass, in the order of the request. -/
def missing (fs : List Finding) : List Flag := (fs.filter (!·.passed)).map (·.flag)

end Finding

end Grants
