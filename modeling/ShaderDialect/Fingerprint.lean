import ShaderDialect.Failure
import ShaderDialect.FileTree
import ShaderDialect.Hash.Xxh3

/-! Fingerprints of texts and of files. -/
namespace ShaderDialect.Fingerprint

def ofBytes (bytes : List UInt8) : String := Text.hex 32 (Xxh3.hash128 bytes).toNat

def ofText (text : String) : String := ofBytes (Text.utf8 text)

/-- What is hashed of a file: its path, the length of its contents, and the contents. -/
def framed (path : Path) (content : List UInt8) : List UInt8 :=
  Text.utf8 path.text ++ Bytes.ofNat 8 content.length ++ content

def stream (tree : FileTree) : List Path → Except Failure (List UInt8)
  | [] => .ok []
  | p :: ps =>
    match tree.read p with
    | .error e => .error (.pathIo p e)
    | .ok content => (stream tree ps).map (framed p content ++ ·)

def ofFiles (tree : FileTree) (paths : List Path) : Except Failure String :=
  (stream tree paths).map ofBytes

end ShaderDialect.Fingerprint
