/-
# PacedAudio.Session.HostRequest — the host's sampling-frequency control

The host sets the rate with three bytes and reads it back with three bytes. A request that carries
no data at all only asks whether the control exists, and is granted.
-/

import PacedAudio.SamplingFrequency
import PacedAudio.Session.Basic

namespace PacedAudio

/-- What the host asks of the sampling-frequency control. -/
inductive HostRequest where
  /-- Switch to the rate in the data. -/
  | setCurrent
  /-- Put the current rate into the data. -/
  | getCurrent
deriving DecidableEq, Repr

/-- What a control request leaves: the number of bytes used, and the data as it is afterwards. -/
structure HostResponse (n : Nat) extends Response n Nat where
  data : Option (List UInt8)

namespace Session

variable {n : Nat}

/-- Switches to the rate that the data begins with. -/
def setCurrent (s : Session n) (data : List UInt8) : HostResponse n :=
  match SamplingFrequency.decode data with
  | .error e => ⟨⟨.error e, s, []⟩, some data⟩
  | .ok rate =>
    let response := s.switchTo rate
    ⟨⟨response.result.map fun _ => SamplingFrequency.byteCount, response.session, response.calls⟩,
      some data⟩

/-- Puts the current rate over the first bytes of the data. -/
def getCurrent (s : Session n) (data : List UInt8) : HostResponse n :=
  if data.length < SamplingFrequency.byteCount then
    ⟨⟨.error .malformedRequest, s, []⟩, some data⟩
  else
    ⟨⟨.ok SamplingFrequency.byteCount, s, []⟩,
      some (SamplingFrequency.encode s.rate ++ data.drop SamplingFrequency.byteCount)⟩

/-- Answers a sampling-frequency request. -/
def answer (s : Session n) (request : HostRequest) (data : Option (List UInt8)) :
    HostResponse n :=
  match data with
  | none => ⟨⟨.ok 0, s, []⟩, none⟩
  | some bytes =>
    match request with
    | .setCurrent => s.setCurrent bytes
    | .getCurrent => s.getCurrent bytes

end Session

end PacedAudio
