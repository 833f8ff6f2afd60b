import ShaderDialect.Frame
import ShaderDialect.Reload

/-! Sending a request to a server. -/
namespace ShaderDialect

structure Network where
  /-- Connects to an address; the connection gives back what is answered to what is sent. -/
  connect : String → Except IoFault (List UInt8 → List UInt8)
  /-- Takes an address for a server. -/
  listen : String → Except IoFault Unit

/-- An address ends in a colon and a number. -/
def Network.checkAddress (address : String) : Except IoFault Unit :=
  match Text.splitAt ':' address.toList with
  | [] | [_] => .error .invalidAddress
  | _ :: part :: parts =>
    let number := parts.getLastD part
    if (Text.boundedNumeral? 10 (1 <<< 16) (Text.dropPlus number)).isSome then .ok ()
    else .error .invalidPortNumber

/-- Connects to an address. Where nobody listens, no server is running. -/
def Network.reach (n : Network) (address : String) : Except Failure (List UInt8 → List UInt8) :=
  match checkAddress address >>= fun _ => n.connect address with
  | .ok exchange => .ok exchange
  | .error .connectionRefused | .error .addressNotAvailable | .error .notFound =>
    .error (.reload (.notRunning address))
  | .error e => .error (.io e)

/-- Asks the server at an address and reads its response. -/
def ReloadRequest.send (n : Network) (address : String) (r : ReloadRequest) :
    Except Failure ReloadResponse := do
  let exchange ← n.reach address
  let frame ← (Frame.encode r.toBytes).mapError Failure.reload
  match ← (Frame.read (exchange frame)).mapError Failure.reload with
  | none => throw (.reload .noResponse)
  | some (payload, _) =>
    match ReloadResponse.ofBytes? payload with
    | some response => return response
    | none => throw .json

end ShaderDialect
