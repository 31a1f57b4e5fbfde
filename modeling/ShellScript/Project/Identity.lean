-- What the tool is called and where its packages are found.
namespace ShellScript
namespace Project

def toolName : String := "shgo"

def toolVersion : String := "0.1.0"

-- Where the interpreter that a generated package links against is found.
def modulePath : String := "github.com/ardnew/shgo"

end Project
end ShellScript
