/-
# PacedAudio.Refusal — the errors a host can be told about

Overruns and underruns are not among them: they are recovered in place and only counted.
-/

namespace PacedAudio

/-- Why a request was turned down. -/
inductive Refusal where
  /-- The rate cannot be played with the installed table. -/
  | unsupportedRate (rate : UInt32)
  /-- A control request carried fewer bytes than its wire format needs. -/
  | malformedRequest
  /-- The session is in use and cannot be borrowed exclusively. -/
  | busy
deriving DecidableEq, Repr

/-- The text that an error is reported with. -/
def Refusal.message : Refusal → String
  | .unsupportedRate rate => "unsupported sample rate " ++ toString rate.toNat ++ " Hz"
  | .malformedRequest => "malformed control request"
  | .busy => "playback session busy"

end PacedAudio
