import ShaderDialect.Command.Run
import Std.Async.DNS
import Std.Async.Signal
import Std.Async.TCP

/-! The program: takes the files below the working directory, does what the command line asks for,
and writes back what has changed. -/
namespace ShaderDialect.Shell
open Std Std.Async Std.Net

def keyOf (path : String) : List String := (path.splitOn "/").filter (· != "")

def textOf (key : List String) : String := "/" ++ "/".intercalate key

/-- The nodes below a directory. -/
partial def nodesBelow (key : List String) : IO (List (List String × Node)) := do
  let dir ← IO.FS.realPath (textOf key)
  let mut nodes := []
  for entry in ← dir.readDir do
    let key := key ++ [entry.fileName]
    if ← entry.path.isDir then nodes := nodes ++ (key, .directory) :: (← nodesBelow key)
    else
      try
        let content ← IO.FS.readBinFile entry.path
        nodes := nodes ++ [(key, .file content.toList false)]
      catch _ => pure ()
  return nodes

def snapshot : IO FileTree := do
  let cwd := keyOf (← IO.FS.realPath ".").toString
  let tree := FileTree.empty cwd
  return { tree with nodes := tree.nodes ++ (← nodesBelow cwd) }

/-- Makes the changes between two trees. -/
def apply (before after : FileTree) : IO Unit := do
  for (key, _) in before.nodes.reverse do
    if (after.node? key).isNone then IO.FS.removeFile (textOf key)
  for (key, node) in after.nodes.mergeSort (fun a b => a.1.length ≤ b.1.length) do
    match node with
    | .directory => if (before.node? key).isNone then IO.FS.createDirAll (textOf key)
    | .file content _ =>
      if before.node? key != some node then
        IO.FS.writeBinFile (textOf key) ⟨content.toArray⟩

def settings : List String := ["PATH", "FSL_DXC", "FSL_GLSLANG", "FSL_XCRUN"]

/-- Where the program runs. It does not start other programs. -/
def machine : IO Machine := do
  let environment ← settings.filterMapM fun name => do
    return (← IO.getEnv name).map (name, ·)
  return { environment, tempDir := ⟨".fsl-tmp"⟩, run := fun _ _ _ => .error .permissionDenied }

/-- Splits an address at its last colon. -/
def splitAddress (address : String) : String × String :=
  let parts := address.splitOn ":"
  (":".intercalate parts.dropLast, parts.getLastD "")

def socketAddress (address : String) : IO SocketAddress := do
  let (host, number) := splitAddress address
  let number := (number.toNat?.getD 0).toUInt16
  let found : Array IPAddr ← (DNS.getAddrInfo host "").block
  match found.toList with
  | IPAddr.v4 addr :: _ => return .v4 ⟨addr, number⟩
  | IPAddr.v6 addr :: _ => return .v6 ⟨addr, number⟩
  | [] => throw (IO.userError s!"cannot find {host}")

/-- Everything that arrives until the other side closes. -/
partial def receiveAll (socket : TCP.Socket.Client) (received : ByteArray) : IO ByteArray := do
  match ← (socket.recv? 65536).block with
  | some bytes => receiveAll socket (received ++ bytes)
  | none => return received

/-- Sends a request and takes what comes back for the network's answer. -/
def exchange (address : String) (frame : List UInt8) : IO Network := do
  let unreachable : Network := ⟨fun _ => .error .connectionRefused, fun _ => .ok ()⟩
  try
    let socket ← TCP.Socket.Client.mk
    (socket.connect (← socketAddress address)).block
    (socket.send ⟨frame.toArray⟩).block
    socket.shutdown.block
    let reply ← receiveAll socket .empty
    return { unreachable with connect := fun _ => .ok fun _ => reply.toList }
  catch _ => return unreachable

def send (socket : TCP.Socket.Client) (response : ReloadResponse) : IO Bool := do
  match Frame.encode response.toBytes with
  | .ok frame =>
    (socket.send ⟨frame.toArray⟩).block
    return true
  | .error _ => return false

/-- Answers the requests on one connection. -/
partial def answerAll (server : ReloadServer) (socket : TCP.Socket.Client) (buffer : List UInt8) :
    IO Unit := do
  let more : IO Unit := do
    match ← (socket.recv? 65536).block with
    | some bytes => answerAll server socket (buffer ++ bytes.toList)
    | none =>
      if let .error fault := Frame.read buffer then
        discard (send socket (ReloadServer.refuse fault))
  match Frame.read buffer with
  | .ok (some (payload, rest)) =>
    let before ← snapshot
    let (after, response) := server.answer before payload
    apply before after
    if ← send socket response then answerAll server socket rest
  | .ok none => more
  | .error (.frameTooLong length) =>
    discard (send socket (ReloadServer.refuse (.frameTooLong length)))
  | .error _ => more

/-- Takes connections until the program is interrupted. -/
partial def acceptAll (server : ReloadServer) (socket : TCP.Socket.Server)
    (interrupt : Signal.Waiter) : Async Unit := do
  let next ← Selectable.one #[
    .case socket.acceptSelector fun client => return some client,
    .case interrupt.selector fun _ => return none]
  match next with
  | some client =>
    try answerAll server client [] catch e => IO.eprintln s!"reload client: {e}"
    acceptAll server socket interrupt
  | none => return ()

def serve (address : String) (server : ReloadServer) : IO UInt32 := do
  try
    let socket ← TCP.Socket.Server.mk
    socket.bind (← socketAddress address)
    socket.listen 128
    (acceptAll server socket (← Signal.Waiter.mk .sigint true)).block
    return 0
  catch e =>
    IO.eprintln s!"Error: {e}"
    return 1

def network (tree : FileTree) (words : List String) : IO Network := do
  let silent : Network := ⟨fun _ => .error .connectionRefused, fun _ => .ok ()⟩
  match Invocation.ofWords words with
  | .run (.reload args) =>
    match (Command.reloadRequest args).run.run ⟨tree, "", ""⟩ with
    | (.ok (address, request), _) =>
      match Network.checkAddress address, Frame.encode request.toBytes with
      | .ok (), .ok frame => exchange address frame
      | _, _ => return silent
    | _ => return silent
  | _ => return silent

end ShaderDialect.Shell

open ShaderDialect in
def main (words : List String) : IO UInt32 := do
  let before ← Shell.snapshot
  match runWords (← Shell.machine) (← Shell.network before words) before words with
  | .serving address server _ => Shell.serve address server
  | .ended status session =>
    Shell.apply before session.tree
    IO.print session.stdout
    IO.eprint session.stderr
    return status
